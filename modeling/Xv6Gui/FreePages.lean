import Xv6Gui.LinkedSlots
import Xv6Gui.PageTables

/-!
# The free list in the free pages

kalloc.c keeps the list of free pages in their own first words. Whatever the owners of the other
pages store there, the list leads through the free pages, each page is either on it or with an
owner, and the pages and the list of `PageTables` are what they should be.
-/
namespace FreePages

open WordMemory PageEntries GuardedRuns LinkedSlots
open PageTables (Fault Layout Kernel)

structure Kmem where
  memory : Memory
  freelist : ℕ

/-- memset -/
def memset (mem : Memory) (dst : ℕ) (c : Byte) (n : ℕ) : Memory :=
  fun a => if dst ≤ a ∧ a < dst + n then c else mem a

/-- V2P on an unsigned number. -/
def v2pAddr (v : ℕ) : ℕ := (v + (4294967296 - kernbase)) % 4294967296

/-- `kend` is the address `end` of kernel.ld. -/
def kfree (kend : ℕ) (s : Kmem) (v : ℕ) : Except Fault Kmem :=
  if v % pgsize ≠ 0 ∨ v < kend ∨ v2pAddr v ≥ phystop then .error (.panic "kfree")
  else .ok ⟨storeWord (memset s.memory v 1 pgsize) v (BitVec.ofNat 32 s.freelist), v⟩

/-- The address that a free page holds. -/
def next (mem : Memory) (v : ℕ) : ℕ := (word mem v).toNat

def kalloc (s : Kmem) : ℕ × Kmem :=
  if s.freelist = 0 then (0, s)
  else (s.freelist, { s with freelist := next s.memory s.freelist })

/-- The loop of freerange, from p on. -/
def freeLoop (kend vend p : ℕ) (s : Kmem) : Except Fault Kmem :=
  if _h : p + pgsize ≤ vend then
    kfree kend s p >>= fun s => freeLoop kend vend (p + pgsize) s
  else .ok s
termination_by vend - p
decreasing_by
  dsimp only [pgsize] at *
  omega

def freerange (kend vstart vend : ℕ) (s : Kmem) : Except Fault Kmem :=
  freeLoop kend vend (pgroundup vstart) s

/-- What kinit1 frees, and what kinit2 does. -/
def kinit (kend : ℕ) (mem : Memory) : Except Fault Kmem :=
  freerange kend kend (kernbase + 4 * 1024 * 1024) ⟨mem, 0⟩ >>= fun s =>
    freerange kend (kernbase + 4 * 1024 * 1024) (kernbase + phystop) s

/-- The pages with an owner are history, and so are the bytes that hold what was last stored
there: kfree leaves its link in the first ones of a page. -/
structure System where
  kmem : Kmem
  used : List ℕ
  known : ℕ → Bool

inductive Event where
  | kalloc
  | kfree (v : ℕ)
  | store (a : ℕ) (b : Byte)

def step (kend : ℕ) (s : System) : Event → Except Fault System
  | .kalloc =>
    let r := kalloc s.kmem
    .ok { s with kmem := r.2, used := if r.1 = 0 then s.used else r.1 :: s.used }
  | .kfree v => do
    let k ← kfree kend s.kmem v
    .ok ⟨k, s.used.erase v, fun a => if v ≤ a ∧ a < v + pgsize then v + 4 ≤ a else s.known a⟩
  | .store a b => .ok { s with
      kmem := { s.kmem with memory := Function.update s.kmem.memory a b }
      known := Function.update s.known a true }

/-- Only who owns a page frees it and stores into it. -/
def Enabled (s : System) : Event → Prop
  | .kalloc => True
  | .kfree v => v ∈ s.used
  | .store a _ => ∃ v ∈ s.used, v ≤ a ∧ a < v + pgsize

/-! ### The list -/

/-- A page that kfree takes. -/
structure Page (kend v : ℕ) : Prop where
  aligned : v % pgsize = 0
  above : kend ≤ v
  kernel : kernbase ≤ v
  below : v < kernbase + phystop

section List

variable {kend v w : ℕ} {s t : Kmem} {l : List ℕ} {mem mem' : Memory}

theorem kfree_eq (h : Page kend v) (s : Kmem) : kfree kend s v =
    .ok ⟨storeWord (memset s.memory v 1 pgsize) v (BitVec.ofNat 32 s.freelist), v⟩ := by
  have hv : v2pAddr v = v - kernbase := by
    have hk := h.kernel
    have hb := h.below
    dsimp only [v2pAddr, kernbase, phystop] at *
    omega
  have hk := h.kernel
  have hb := h.below
  refine if_neg ?_
  rintro (ha | ha | ha)
  · exact ha h.aligned
  · exact absurd h.above (by omega)
  · rw [hv] at ha
    dsimp only [kernbase, phystop] at *
    omega

/-- Two pages are apart. -/
theorem apart {a : ℕ} (hv : v % pgsize = 0) (hw : w % pgsize = 0) (hne : w ≠ v) (ha : w ≤ a)
    (ha' : a < w + pgsize) : a < v ∨ v + pgsize ≤ a := by
  dsimp only [pgsize] at *
  omega

theorem kfree_outside {a : ℕ} (ha : a < v ∨ v + pgsize ≤ a) (x : Word) :
    storeWord (memset mem v 1 pgsize) v x a = mem a := by
  rw [storeWord_outside _ _ (by dsimp only [pgsize] at ha; omega), memset, if_neg (by omega)]

/-- The list of free pages. -/
structure FreeList (kend : ℕ) (s : Kmem) (l : List ℕ) : Prop where
  path : Path (· = 0) (next s.memory) s.freelist l 0
  pages : ∀ v ∈ l, Page kend v

theorem FreeList.freelist_lt (h : FreeList kend s l) : s.freelist < 4294967296 := by
  obtain ⟨hpath, hpages⟩ := h
  cases l with
  | nil =>
    rw [hpath.of_nil.1]
    decide
  | cons v l =>
    rw [hpath.of_cons.1]
    have := (hpages v List.mem_cons_self).below
    dsimp only [kernbase, phystop] at this
    omega

theorem FreeList.free (h : FreeList kend s l) (hv : Page kend v) (hl : v ∉ l) :
    ∃ t, kfree kend s v = .ok t ∧ FreeList kend t (v :: l) ∧
      ∀ a, a < v ∨ v + pgsize ≤ a → t.memory a = s.memory a := by
  refine ⟨_, kfree_eq hv s, ⟨?_, ?_⟩, fun a ha => kfree_outside ha _⟩
  · have hpos : v ≠ 0 := by
      have := hv.kernel
      dsimp only [kernbase] at this
      omega
    refine .visit hpos ?_
    have hnext : next (storeWord (memset s.memory v 1 pgsize) v (BitVec.ofNat 32 s.freelist)) v =
        s.freelist := by
      rw [next, word_storeWord, BitVec.toNat_ofNat, Nat.mod_eq_of_lt h.freelist_lt]
    rw [hnext]
    refine h.path.congr fun w hw => ?_
    have hne : w ≠ v := fun e => hl (e ▸ hw)
    refine congrArg BitVec.toNat (word_congr fun a ha ha' => kfree_outside ?_ _)
    exact apart hv.aligned (h.pages w hw).aligned hne ha (by dsimp only [pgsize]; omega)
  · exact List.forall_mem_cons.mpr ⟨hv, h.pages⟩

/-- kalloc takes the first page off the list, if there is one. -/
theorem FreeList.alloc (h : FreeList kend s l) :
    (l = [] ∧ kalloc s = (0, s)) ∨ ∃ v rest, l = v :: rest ∧ v ≠ 0 ∧
      kalloc s = (v, { s with freelist := next s.memory v }) ∧
      FreeList kend { s with freelist := next s.memory v } rest := by
  obtain ⟨hpath, hpages⟩ := h
  cases l with
  | nil => exact .inl ⟨rfl, if_pos hpath.of_nil.1⟩
  | cons v rest =>
    obtain ⟨hv, hn, hpath⟩ := hpath.of_cons
    refine .inr ⟨v, rest, rfl, hn, ?_, hpath, fun w hw => hpages w (List.mem_cons_of_mem _ hw)⟩
    rw [kalloc, hv, if_neg hn]

/-- Bytes outside the free pages may change. -/
theorem FreeList.store {a : ℕ} {b : Byte} (h : FreeList kend s l)
    (ha : ∀ v ∈ l, a < v ∨ v + pgsize ≤ a) :
    FreeList kend { s with memory := Function.update s.memory a b } l := by
  refine ⟨h.path.congr fun v hv => ?_, h.pages⟩
  refine congrArg BitVec.toNat (word_congr fun x hx hx' => Function.update_of_ne ?_ ..)
  have := ha v hv
  dsimp only [pgsize] at this
  omega

/-- All of a page but the link is junk. -/
def Junk (mem : Memory) (v : ℕ) : Prop := ∀ a, v + 4 ≤ a → a < v + pgsize → mem a = 1

theorem kfree_junk (x : Word) : Junk (storeWord (memset mem v 1 pgsize) v x) v := by
  intro a ha ha'
  rw [storeWord_outside _ _ (by omega), memset, if_pos (by omega)]

theorem freeLoop_ok {vend p : ℕ} (n : ℕ) (h : FreeList kend s l) (hj : ∀ v ∈ l, Junk s.memory v)
    (hl : ∀ v ∈ l, v + pgsize ≤ p) (hn : p + pgsize * n ≤ vend) (hn' : vend < p + pgsize * (n + 1))
    (hpage : ∀ i < n, Page kend (p + pgsize * i)) :
    ∃ t, freeLoop kend vend p s = .ok t ∧
      FreeList kend t ((List.range' p n pgsize).reverse ++ l) ∧
      (∀ v ∈ (List.range' p n pgsize).reverse ++ l, Junk t.memory v) ∧
      ∀ a, (a < p ∨ vend ≤ a) → t.memory a = s.memory a := by
  induction n generalizing p s l with
  | zero =>
    refine ⟨s, ?_, h, hj, fun _ _ => rfl⟩
    rw [freeLoop, dif_neg (by omega)]
  | succ n ih =>
    have hp : Page kend p := hpage 0 (Nat.succ_pos n)
    obtain ⟨hfits, hrest, hrest'⟩ : p + pgsize ≤ vend ∧ p + pgsize + pgsize * n ≤ vend ∧
        vend < p + pgsize + pgsize * (n + 1) := by
      dsimp only [pgsize] at *
      omega
    have hnot : p ∉ l := by
      intro hm
      have := hl p hm
      dsimp only [pgsize] at this
      omega
    obtain ⟨t, ht, hfree, hframe⟩ := h.free hp hnot
    have hjunk : ∀ v ∈ p :: l, Junk t.memory v := by
      refine List.forall_mem_cons.mpr ⟨?_, fun v hv a ha ha' => ?_⟩
      · rw [kfree_eq hp] at ht
        cases ht
        exact kfree_junk _
      · rw [hframe a (.inl (lt_of_lt_of_le ha' (hl v hv)))]
        exact hj v hv a ha ha'
    have hbelow : ∀ v ∈ p :: l, v + pgsize ≤ p + pgsize := by
      refine List.forall_mem_cons.mpr ⟨le_rfl, fun v hv => ?_⟩
      exact (hl v hv).trans (Nat.le_add_right _ _)
    have hpage' : ∀ i < n, Page kend (p + pgsize + pgsize * i) := by
      intro i hi
      have := hpage (i + 1) (Nat.succ_lt_succ hi)
      rwa [Nat.mul_succ, Nat.add_comm (pgsize * i), ← Nat.add_assoc] at this
    obtain ⟨u, hu, hfree', hjunk', hframe'⟩ := ih hfree hjunk hbelow hrest hrest' hpage'
    have hlist : (List.range' p (n + 1) pgsize).reverse ++ l =
        (List.range' (p + pgsize) n pgsize).reverse ++ p :: l := by
      rw [List.range'_succ, List.reverse_cons, List.append_assoc]
      rfl
    refine ⟨u, ?_, hlist ▸ hfree', hlist ▸ hjunk', fun a ha => ?_⟩
    · rw [freeLoop, dif_pos hfits, ht, ok_bind, hu]
    · have hout : (a < p + pgsize ∨ vend ≤ a) ∧ (a < p ∨ p + pgsize ≤ a) :=
        ⟨ha.imp_left fun h => h.trans_le (Nat.le_add_right _ _), ha.imp_right hfits.trans⟩
      rw [hframe' a hout.1, hframe a hout.2]

/-- The pages from the end of the kernel to the top of physical memory. -/
def arena (kend : ℕ) : List ℕ :=
  List.range' (pgroundup kend) ((kernbase + phystop - pgroundup kend) / pgsize) pgsize

theorem pgroundup_kend (hk' : kend ≤ kernbase + 4 * 1024 * 1024) :
    pgroundup kend = (kend + 4095) / 4096 * 4096 := by
  have hlt : kend + (pgsize - 1) < 4294967296 := by
    dsimp only [kernbase, pgsize] at *
    omega
  rw [pgroundup, Nat.mod_eq_of_lt hlt]
  rfl

theorem arena_page (hk : kernbase ≤ kend) (hk' : kend ≤ kernbase + 4 * 1024 * 1024)
    (hv : v ∈ arena kend) : Page kend v := by
  obtain ⟨i, hi, rfl⟩ := List.mem_range'.mp hv
  have hround := pgroundup_kend hk'
  constructor <;> dsimp only [pgsize, kernbase, phystop] at * <;> omega

/-- The highest page is the first one on the list. -/
theorem arena_top (hk' : kend ≤ kernbase + 4 * 1024 * 1024) :
    ∃ l, (arena kend).reverse = (kernbase + phystop - pgsize) :: l := by
  obtain ⟨n, hn⟩ : ∃ n, (kernbase + phystop - pgroundup kend) / pgsize = n + 1 := by
    refine ⟨(kernbase + phystop - pgroundup kend) / pgsize - 1, ?_⟩
    have hround := pgroundup_kend hk'
    dsimp only [pgsize, kernbase, phystop] at *
    omega
  have htop : pgroundup kend + pgsize * n = kernbase + phystop - pgsize := by
    have hround := pgroundup_kend hk'
    dsimp only [pgsize, kernbase, phystop] at *
    omega
  refine ⟨(List.range' (pgroundup kend) n pgsize).reverse, ?_⟩
  rw [arena, hn, List.range'_concat, htop, List.reverse_concat]

theorem kinit_ok (hk : kernbase ≤ kend) (hk' : kend ≤ kernbase + 4 * 1024 * 1024)
    (mem : Memory) : ∃ s, kinit kend mem = .ok s ∧ FreeList kend s (arena kend).reverse ∧
      (∀ v ∈ arena kend, Junk s.memory v) ∧
      ∀ a, (a < pgroundup kend ∨ kernbase + phystop ≤ a) → s.memory a = mem a := by
  obtain ⟨n, hn⟩ : ∃ n, pgroundup kend + pgsize * n = kernbase + 4 * 1024 * 1024 := by
    refine ⟨(kernbase + 4 * 1024 * 1024 - pgroundup kend) / pgsize, ?_⟩
    rw [pgroundup_kend hk']
    dsimp only [pgsize, kernbase] at *
    omega
  have hround : pgroundup (kernbase + 4 * 1024 * 1024) = kernbase + 4 * 1024 * 1024 := by
    decide +kernel
  have htop : kernbase + 4 * 1024 * 1024 + pgsize * 56320 = kernbase + phystop := by
    decide +kernel
  have hlist : arena kend = List.range' (pgroundup kend) n pgsize ++
      List.range' (kernbase + 4 * 1024 * 1024) 56320 pgsize := by
    have hlen : (kernbase + phystop - pgroundup kend) / pgsize = n + 56320 := by
      dsimp only [pgsize, kernbase, phystop] at *
      omega
    rw [arena, hlen, ← hn, List.range'_append]
  have hpages : ∀ v ∈ arena kend, Page kend v := fun v hv => arena_page hk hk' hv
  have hstart : FreeList kend ⟨mem, 0⟩ [] := ⟨.done rfl, nofun⟩
  have hlow : ∀ i < n, Page kend (pgroundup kend + pgsize * i) := fun i hi =>
    hpages _ (hlist ▸ List.mem_append_left _ (List.mem_range'.mpr ⟨i, hi, rfl⟩))
  have hhigh : ∀ i < 56320, Page kend (kernbase + 4 * 1024 * 1024 + pgsize * i) := fun i hi =>
    hpages _ (hlist ▸ List.mem_append_right _ (List.mem_range'.mpr ⟨i, hi, rfl⟩))
  have hlast : kernbase + 4 * 1024 * 1024 < pgroundup kend + pgsize * (n + 1) := by
    rw [← hn]
    dsimp only [pgsize]
    omega
  have hlast' : kernbase + phystop < kernbase + 4 * 1024 * 1024 + pgsize * (56320 + 1) := by
    decide +kernel
  obtain ⟨s, hs, hfree, hjunk, hframe⟩ := freeLoop_ok n hstart nofun nofun hn.le hlast hlow
  have hbelow : ∀ v ∈ (List.range' (pgroundup kend) n pgsize).reverse ++ [],
      v + pgsize ≤ kernbase + 4 * 1024 * 1024 := by
    intro v hv
    rw [List.append_nil, List.mem_reverse] at hv
    obtain ⟨i, hi, rfl⟩ := List.mem_range'.mp hv
    rw [← hn]
    dsimp only [pgsize]
    omega
  obtain ⟨t, ht, hfree', hjunk', hframe'⟩ := freeLoop_ok 56320 hfree hjunk hbelow htop.le
    hlast' hhigh
  rw [List.append_nil, ← List.reverse_append, ← hlist] at hfree' hjunk'
  refine ⟨t, ?_, hfree', fun v hv => hjunk' v (List.mem_reverse.mpr hv), fun a ha => ?_⟩
  · rw [kinit, freerange, hs, ok_bind, freerange, hround]
    exact ht
  · have hle : pgroundup kend ≤ kernbase + 4 * 1024 * 1024 := hn ▸ Nat.le_add_right _ _
    have hle' : kernbase + 4 * 1024 * 1024 ≤ kernbase + phystop := htop ▸ Nat.le_add_right _ _
    rw [hframe' a (ha.imp_left fun h => h.trans_le hle), hframe a (ha.imp_right hle'.trans)]

end List

/-! ### The pages of `PageTables` -/

def frame (a : ℕ) : ℕ := (a - kernbase) / pgsize

def address (f : ℕ) : ℕ := kernbase + f * pgsize

/-- The same event on pages. -/
def pageStep (L : Layout) (m : Kernel) : Event → Except Fault Kernel
  | .kalloc => .ok ((PageTables.kalloc m).elim m Prod.snd)
  | .kfree v => PageTables.kfree L (frame v) m
  | .store a b => .ok { m with
      mem := Function.update m.mem (frame a)
        (Function.update (m.mem (frame a)) (a % pgsize) b) }

/-- kfree has junked all pages when kinit2 returns. -/
def booted (k : Kmem) : System := ⟨k, [], fun a => 4 ≤ a % pgsize⟩

def freshPages (kend : ℕ) : Kernel := ⟨fun _ _ => 1, (arena kend).reverse.map frame⟩

/-- The free pages are those of the model, each other page has an owner, known bytes are as in the
model, and nothing else in memory has changed. -/
structure Agrees (kend : ℕ) (mem : Memory) (s : System) (m : Kernel) : Prop where
  list : FreeList kend s.kmem (m.freelist.map address)
  pages : (m.freelist.map address ++ s.used).Perm (arena kend)
  bytes : ∀ v ∈ arena kend, ∀ a, v ≤ a → a < v + pgsize → s.known a →
    s.kmem.memory a = m.mem (frame a) (a % pgsize)
  outside : ∀ a, (a < pgroundup kend ∨ kernbase + phystop ≤ a) → s.kmem.memory a = mem a

section Refinement

variable {kend v w a : ℕ} {L : Layout} {s : System} {m : Kernel} {mem : Memory}

theorem Page.frame_eq (h : Page kend v) (ha : v ≤ a) (ha' : a < v + pgsize) :
    frame a = frame v ∧ a % pgsize = a - v := by
  have halign := h.aligned
  have hk := h.kernel
  dsimp only [frame, pgsize, kernbase] at *
  omega

theorem Page.address_frame (h : Page kend v) : address (frame v) = v := by
  have halign := h.aligned
  have hk := h.kernel
  dsimp only [frame, address, pgsize, kernbase] at *
  omega

theorem Page.frame_ne (hv : Page kend v) (hw : Page kend w) (hne : w ≠ v) : frame w ≠ frame v :=
  fun he => hne (hw.address_frame ▸ hv.address_frame ▸ congrArg address he)

theorem Page.valid (h : Page kend v) (hk' : kend ≤ kernbase + 4 * 1024 * 1024)
    (hL : address L.endFrame = pgroundup kend) : L.Valid (frame v) := by
  have halign := h.aligned
  have habove := h.above
  have hk := h.kernel
  have hb := h.below
  rw [pgroundup_kend hk'] at hL
  rw [Layout.Valid]
  dsimp only [frame, address, pgsize, kernbase, phystop] at *
  omega

theorem arena_nodup : (arena kend).Nodup := by
  rw [arena]
  exact List.nodup_range' _ (by decide)

theorem arena_inside (hk' : kend ≤ kernbase + 4 * 1024 * 1024) (hv : v ∈ arena kend) :
    pgroundup kend ≤ v ∧ v + pgsize ≤ kernbase + phystop := by
  obtain ⟨i, hi, rfl⟩ := List.mem_range'.mp hv
  have hround := pgroundup_kend hk'
  dsimp only [pgsize, kernbase, phystop] at *
  omega

theorem Agrees.used (h : Agrees kend mem s m) (hv : v ∈ s.used) :
    v ∈ arena kend ∧ v ∉ m.freelist.map address := by
  refine ⟨h.pages.mem_iff.mp (List.mem_append_right _ hv), fun hm => ?_⟩
  exact List.disjoint_of_nodup_append (h.pages.nodup_iff.mpr arena_nodup) hm hv

theorem Agrees.alloc (h : Agrees kend mem s m) :
    ∃ t u, step kend s .kalloc = .ok t ∧ pageStep L m .kalloc = .ok u ∧ Agrees kend mem t u := by
  rcases h.list.alloc with ⟨hnil, heq⟩ | ⟨v, rest, hl, hne, heq, hrest⟩
  · have hm : PageTables.kalloc m = none := by
      rw [PageTables.kalloc, List.map_eq_nil_iff.mp hnil]
    refine ⟨s, m, ?_, ?_, h⟩
    · simp only [step, heq, if_true]
    · simp only [pageStep, hm, Option.elim_none]
  · obtain ⟨f, fs, hfs, rfl, rfl⟩ := List.map_eq_cons_iff.mp hl
    have hm : PageTables.kalloc m = some (f, { m with freelist := fs }) := by
      rw [PageTables.kalloc, hfs]
    refine ⟨_, { m with freelist := fs }, rfl, ?_, ?_⟩
    · simp only [pageStep, hm, Option.elim_some]
    · simp only [heq, if_neg hne]
      refine ⟨hrest, ?_, h.bytes, h.outside⟩
      have hp := h.pages
      rw [hl] at hp
      exact List.perm_middle.trans hp

theorem Agrees.free (h : Agrees kend mem s m) (hk : kernbase ≤ kend)
    (hk' : kend ≤ kernbase + 4 * 1024 * 1024) (hL : address L.endFrame = pgroundup kend)
    (hv : v ∈ s.used) :
    ∃ t u, step kend s (.kfree v) = .ok t ∧ pageStep L m (.kfree v) = .ok u ∧
      Agrees kend mem t u := by
  obtain ⟨hin, hnot⟩ := h.used hv
  have hpage : Page kend v := arena_page hk hk' hin
  obtain ⟨t, ht, hlist, hframe⟩ := h.list.free hpage hnot
  have hjunk : Junk t.memory v := by
    rw [kfree_eq hpage] at ht
    cases ht
    exact kfree_junk _
  have hvalid : ¬ ¬ L.Valid (frame v) := not_not.mpr (hpage.valid hk' hL)
  refine ⟨_, _, by rw [step, ht, ok_bind], by rw [pageStep, PageTables.kfree, if_neg hvalid],
    ?_, ?_, ?_, ?_⟩
  · rw [List.map_cons, hpage.address_frame]
    exact hlist
  · rw [List.map_cons, hpage.address_frame]
    refine List.Perm.trans ?_ h.pages
    exact List.perm_middle.symm.trans ((List.perm_cons_erase hv).symm.append_left _)
  · intro w hw a ha ha' hknown
    by_cases hwv : w = v
    · subst hwv
      obtain ⟨hf, hoff⟩ := hpage.frame_eq ha ha'
      simp only [if_pos (And.intro ha ha'), decide_eq_true_eq] at hknown
      dsimp only
      rw [hf, PageTables.fill, Function.update_self]
      exact hjunk a hknown ha'
    · have hwpage : Page kend w := arena_page hk hk' hw
      have hout := apart hpage.aligned hwpage.aligned hwv ha ha'
      obtain ⟨hf, hoff⟩ := hwpage.frame_eq ha ha'
      have hnotin : ¬ (v ≤ a ∧ a < v + pgsize) := by omega
      dsimp only at hknown ⊢
      rw [if_neg hnotin] at hknown
      rw [hframe a hout, h.bytes w hw a ha ha' hknown, hf, PageTables.fill,
        Function.update_of_ne (hpage.frame_ne hwpage hwv)]
  · intro a ha
    obtain ⟨hlow, hhigh⟩ := arena_inside hk' hin
    rw [hframe a (ha.imp (fun h => h.trans_le hlow) hhigh.trans), h.outside a ha]

theorem Agrees.store {b : Byte} (h : Agrees kend mem s m) (hk : kernbase ≤ kend)
    (hk' : kend ≤ kernbase + 4 * 1024 * 1024) (hv : v ∈ s.used) (ha : v ≤ a)
    (ha' : a < v + pgsize) :
    ∃ t u, step kend s (.store a b) = .ok t ∧ pageStep L m (.store a b) = .ok u ∧
      Agrees kend mem t u := by
  obtain ⟨hin, hnot⟩ := h.used hv
  have hpage : Page kend v := arena_page hk hk' hin
  obtain ⟨hf, hoff⟩ := hpage.frame_eq ha ha'
  refine ⟨_, _, rfl, rfl, h.list.store fun w hw => ?_, h.pages, ?_, ?_⟩
  · have hne : v ≠ w := fun e => hnot (e ▸ hw)
    exact apart (h.list.pages w hw).aligned hpage.aligned hne ha ha'
  · intro w hw x hx hx' hknown
    have hwpage : Page kend w := arena_page hk hk' hw
    obtain ⟨hxf, hxoff⟩ := hwpage.frame_eq hx hx'
    by_cases hxa : x = a
    · subst x
      simp only [Function.update_self]
    · dsimp only at hknown ⊢
      rw [Function.update_of_ne hxa] at hknown
      rw [Function.update_of_ne hxa, h.bytes w hw x hx hx' hknown]
      by_cases hwv : w = v
      · subst hwv
        have hoffs : x % pgsize ≠ a % pgsize := by omega
        rw [hxf, hf, Function.update_self, Function.update_of_ne hoffs]
      · rw [hxf, hf, Function.update_of_ne (hpage.frame_ne hwpage hwv)]
  · intro x hx
    obtain ⟨hlow, hhigh⟩ := arena_inside hk' hin
    have hne : x ≠ a := by omega
    exact (Function.update_of_ne hne ..).trans (h.outside x hx)

theorem booted_agrees (hk : kernbase ≤ kend) (hk' : kend ≤ kernbase + 4 * 1024 * 1024)
    {k : Kmem} (hlist : FreeList kend k (arena kend).reverse)
    (hjunk : ∀ v ∈ arena kend, Junk k.memory v)
    (hout : ∀ a, (a < pgroundup kend ∨ kernbase + phystop ≤ a) → k.memory a = mem a) :
    Agrees kend mem (booted k) (freshPages kend) := by
  have hpages : (freshPages kend).freelist.map address = (arena kend).reverse := by
    rw [freshPages, List.map_map]
    refine (List.map_congr_left fun v hv => ?_).trans (List.map_id _)
    rw [Function.comp_apply, (arena_page hk hk' (List.mem_reverse.mp hv)).address_frame, id_eq]
  refine ⟨hpages ▸ hlist, ?_, ?_, hout⟩
  · rw [hpages, booted, List.append_nil]
    exact List.reverse_perm _
  · intro v hv a ha ha' hknown
    obtain ⟨-, hoff⟩ := (arena_page hk hk' hv).frame_eq ha ha'
    have hlink : 4 ≤ a % pgsize := of_decide_eq_true hknown
    rw [hoff] at hlink
    have hone : k.memory a = 1 := hjunk v hv a (by omega) ha'
    exact hone

theorem Agrees.step (h : Agrees kend mem s m) (hk : kernbase ≤ kend)
    (hk' : kend ≤ kernbase + 4 * 1024 * 1024) (hL : address L.endFrame = pgroundup kend)
    {e : Event} (he : Enabled s e) :
    ∃ t u, step kend s e = .ok t ∧ pageStep L m e = .ok u ∧ Agrees kend mem t u := by
  cases e with
  | kalloc => exact h.alloc
  | kfree v => exact h.free hk hk' hL he
  | store a b =>
    obtain ⟨v, hv, ha, ha'⟩ := he
    exact h.store hk hk' hv ha ha'

/-- What kalloc returns. -/
theorem Agrees.returned (h : Agrees kend mem s m) :
    (kalloc s.kmem).1 = (PageTables.kalloc m).elim 0 fun r => address r.1 := by
  rcases h.list.alloc with ⟨hnil, heq⟩ | ⟨v, rest, hl, -, heq, -⟩
  · rw [heq, PageTables.kalloc, List.map_eq_nil_iff.mp hnil]
    rfl
  · obtain ⟨f, fs, hfs, rfl, -⟩ := List.map_eq_cons_iff.mp hl
    rw [heq, PageTables.kalloc, hfs]
    rfl

theorem run_agrees (h : Agrees kend mem s m) (hk : kernbase ≤ kend)
    (hk' : kend ≤ kernbase + 4 * 1024 * 1024) (hL : address L.endFrame = pgroundup kend)
    {es : List Event} (hes : Along (step kend) Enabled s es) :
    ∃ t u, Execution (step kend) s es t ∧ Execution (pageStep L) m es u ∧ Agrees kend mem t u := by
  induction es generalizing s m with
  | nil => exact ⟨s, m, .nil s, .nil m, h⟩
  | cons e es ih =>
    obtain ⟨t, u, ht, hu, htu⟩ := h.step hk hk' hL hes.1
    obtain ⟨t', u', ht', hu', htu'⟩ := ih htu (hes.2 t ht)
    exact ⟨t', u', .cons ht ht', .cons hu hu', htu'⟩

/-- From kinit on no call panics, whatever the owners store in their pages, and the free list and
the pages are at each point those of `PageTables`, whose pages are the answers of kalloc. -/
theorem free_list_exact (kend : ℕ) (L : Layout) (mem : Memory) (hk : kernbase ≤ kend)
    (hk' : kend ≤ kernbase + 4 * 1024 * 1024) (hL : address L.endFrame = pgroundup kend) :
    ∃ k, kinit kend mem = .ok k ∧ ∀ es, Along (step kend) Enabled (booted k) es →
      ∃ s m, Execution (step kend) (booted k) es s ∧
        Execution (pageStep L) (freshPages kend) es m ∧ Agrees kend mem s m ∧
        (kalloc s.kmem).1 = (PageTables.kalloc m).elim 0 fun r => address r.1 := by
  obtain ⟨k, hkinit, hlist, hjunk, hout⟩ := kinit_ok hk hk' mem
  refine ⟨k, hkinit, fun es hes => ?_⟩
  obtain ⟨s, m, hs, hm, hagrees⟩ := run_agrees (booted_agrees hk hk' hlist hjunk hout) hk hk' hL hes
  exact ⟨s, m, hs, hm, hagrees, hagrees.returned⟩

theorem pageStep_again {L : Layout} {v : ℕ} (b : Byte) (mem : PageTables.Pages) (l : List ℕ) (a : ℕ)
    (hv : L.Valid (frame v)) :
    ∃ m, Execution (pageStep L) ⟨mem, frame v :: l⟩ [.kalloc, .store a b, .kfree v] m ∧
      m.freelist = frame v :: l :=
  ⟨_, .cons rfl (.cons rfl (.cons (if_neg (not_not.mpr hv)) (.nil _))), rfl⟩

/-- The owner of the highest page stores into its first word and frees it, and gets it again. -/
theorem free_list_exact_again : ∃ (L : Layout) (k : Kmem) (s : System) (m : Kernel),
    kinit 2148705280 (fun _ => 0) = .ok k ∧
    Execution (step 2148705280) (booted k)
      [.kalloc, .store 2382360577 7, .kfree 2382360576] s ∧
    Execution (pageStep L) (freshPages 2148705280)
      [.kalloc, .store 2382360577 7, .kfree 2382360576] m ∧
    (kalloc s.kmem).1 = 2382360576 := by
  let L : Layout := ⟨2148564992, 299, by decide, by decide, by decide, by decide⟩
  obtain ⟨k, hk, hruns⟩ := free_list_exact 2148705280 L (fun _ => 0) (by decide) (by decide)
    (by decide +kernel)
  obtain ⟨l, hl⟩ : ∃ l, (arena 2148705280).reverse = (kernbase + phystop - pgsize) :: l :=
    arena_top (by decide)
  have hpages : freshPages 2148705280 = ⟨fun _ _ => 1, frame 2382360576 :: l.map frame⟩ := by
    have htop : kernbase + phystop - pgsize = 2382360576 := by decide
    rw [freshPages, hl, htop, List.map_cons]
  have haddr : address (frame 2382360576) = 2382360576 := by decide +kernel
  have hfirst : (kalloc k).1 = 2382360576 := by
    obtain ⟨s, m, hs, hm, -, hreturned⟩ := hruns [] trivial
    cases hs
    cases hm
    rw [booted, hpages, PageTables.kalloc, Option.elim_some, haddr] at hreturned
    exact hreturned
  have hused : ∀ s, step 2148705280 (booted k) .kalloc = .ok s → s.used = [2382360576] := by
    rintro s hs
    cases hs
    simp only [booted, hfirst, if_neg (show (2382360576 : ℕ) ≠ 0 by decide)]
  have hes : Along (step 2148705280) Enabled (booted k)
      [.kalloc, .store 2382360577 7, .kfree 2382360576] := by
    refine ⟨trivial, fun s hs => ⟨?_, fun t ht => ⟨?_, fun _ _ => trivial⟩⟩⟩
    · refine ⟨2382360576, ?_, by decide, by decide⟩
      rw [hused s hs]
      exact List.mem_singleton_self _
    · cases ht
      rw [Enabled, hused s hs]
      exact List.mem_singleton_self _
  obtain ⟨s, m, hs, hm, -, hreturned⟩ := hruns _ hes
  refine ⟨L, k, s, m, hk, hs, hm, ?_⟩
  have hvalid : L.Valid (frame 2382360576) := by decide +kernel
  obtain ⟨u, hu, hlist⟩ := pageStep_again 7 (fun _ _ => 1) (l.map frame)
    2382360577 hvalid
  rw [← hpages] at hu
  rw [hreturned, hm.unique hu, PageTables.kalloc, hlist]
  dsimp only
  rw [Option.elim_some, haddr]

end Refinement

end FreePages
