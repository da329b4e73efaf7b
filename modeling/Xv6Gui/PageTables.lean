import Xv6Gui.PageEntries
import Xv6Gui.GuardedRuns

/-!
# Physical pages and page tables

kalloc and kfree of kalloc.c, the functions of vm.c that build, copy and free address spaces,
and growproc. Kernel pointers to pages are page numbers, and the link that a free page holds is
the order of the free list. Loops over addresses carry a bound of one step for each page of the
address space.
-/
namespace PageTables

open WordMemory PageEntries GuardedRuns

inductive Fault where
  | panic (msg : String)
  | nullPointer
  | diverges
  deriving DecidableEq, Repr

/-- Where kernel.ld puts the kernel's data, and the first page that starts at or behind `end`. -/
structure Layout where
  data : ℕ
  endFrame : ℕ
  aligned : data % pgsize = 0
  kernlink_lt : kernlink < data
  data_lt : data < kernbase + phystop
  data_le : data ≤ kernbase + endFrame * pgsize

/-- Physical memory, page by page. -/
abbrev Pages := ℕ → Memory

structure Kernel where
  mem : Pages
  freelist : List ℕ

/-- Where a page table entry lies. -/
structure Pte where
  page : ℕ
  index : ℕ
  deriving DecidableEq, Repr

variable (L : Layout)

def entry (mem : Pages) (page index : ℕ) : Word := word (mem page) (4 * index)

def setEntry (mem : Pages) (page index : ℕ) (v : Word) : Pages :=
  Function.update mem page (storeWord (mem page) (4 * index) v)

def fill (mem : Pages) (page : ℕ) (c : Byte) : Pages := Function.update mem page fun _ => c

/-- A page that `kfree` takes. -/
def Layout.Valid (f : ℕ) : Prop := L.endFrame ≤ f ∧ f < phystop / pgsize

instance (f : ℕ) : Decidable (L.Valid f) := inferInstanceAs (Decidable (_ ∧ _))

def kalloc (s : Kernel) : Option (ℕ × Kernel) :=
  match s.freelist with
  | [] => none
  | f :: rest => some (f, { s with freelist := rest })

def kfree (f : ℕ) (s : Kernel) : Except Fault Kernel :=
  if ¬L.Valid f then .error (.panic "kfree")
  else .ok ⟨fill s.mem f 1, f :: s.freelist⟩

def walkpgdir (pgdir va : ℕ) (alloc : Bool) (s : Kernel) : Option Pte × Kernel :=
  let pde := entry s.mem pgdir (pdx va)
  if Present pde then (some ⟨p2v (pteAddr pde), ptx va⟩, s)
  else if alloc = false then (none, s)
  else
    match kalloc s with
    | none => (none, s)
    | some (pgtab, s) =>
      (some ⟨pgtab, ptx va⟩, { s with
        mem := setEntry (fill s.mem pgtab 0) pgdir (pdx va)
          (v2p pgtab ||| pteP ||| pteW ||| pteU) })

/-- One step for each page of the address space. -/
abbrev allPages : ℕ := 1048576

def mappagesLoop (pgdir last : ℕ) (perm : Word) :
    ℕ → ℕ → Word → Kernel → Except Fault (ℤ × Kernel)
  | 0, _, _, _ => .error .diverges
  | n + 1, a, pa, s =>
    match walkpgdir pgdir a true s with
    | (none, s) => .ok (-1, s)
    | (some pte, s) =>
      if Present (entry s.mem pte.page pte.index) then .error (.panic "remap")
      else
        let s := { s with mem := setEntry s.mem pte.page pte.index (pa ||| perm ||| pteP) }
        if a = last then .ok (0, s)
        else mappagesLoop pgdir last perm n ((a + pgsize) % 4294967296) (pa + 4096) s

def mappages (pgdir va size : ℕ) (pa perm : Word) (s : Kernel) : Except Fault (ℤ × Kernel) :=
  mappagesLoop pgdir (pgrounddown ((va + size + 4294967295) % 4294967296)) perm allPages
    (pgrounddown va) pa s

structure Kmap where
  virt : ℕ
  physStart : ℕ
  physEnd : ℕ
  perm : Word

def Kmap.size (k : Kmap) : ℕ := (k.physEnd + 4294967296 - k.physStart) % 4294967296

def kmap : List Kmap := [
  ⟨kernbase, 0, extmem, pteW⟩,
  ⟨kernlink, kernlink - kernbase, L.data - kernbase, 0⟩,
  ⟨L.data, L.data - kernbase, phystop, pteW⟩,
  ⟨devspace, devspace, 0, pteW⟩]

def deallocuvmLoop (pgdir oldsz : ℕ) : ℕ → ℕ → Kernel → Except Fault Kernel
  | 0, _, _ => .error .diverges
  | n + 1, a, s =>
    if a < oldsz then
      match walkpgdir pgdir a false s with
      | (none, s) => deallocuvmLoop pgdir oldsz n (pgaddr (pdx a + 1)) s
      | (some pte, s) =>
        let e := entry s.mem pte.page pte.index
        if Present e then
          if pteAddr e = 0 then .error (.panic "kfree")
          else
            kfree L (p2v (pteAddr e)) s >>= fun s =>
              deallocuvmLoop pgdir oldsz n ((a + pgsize) % 4294967296)
                { s with mem := setEntry s.mem pte.page pte.index 0 }
        else deallocuvmLoop pgdir oldsz n ((a + pgsize) % 4294967296) s
    else .ok s

def deallocuvm (pgdir oldsz newsz : ℕ) (s : Kernel) : Except Fault (ℕ × Kernel) :=
  if newsz ≥ oldsz then .ok (oldsz, s)
  else
    deallocuvmLoop L pgdir oldsz (allPages + 1) (pgroundup newsz) s >>= fun s => .ok (newsz, s)

/-- The loop over the directory, from entry `i` on. -/
def freeTables (pgdir : ℕ) : ℕ → ℕ → Kernel → Except Fault Kernel
  | 0, _, s => .ok s
  | n + 1, i, s =>
    let pde := entry s.mem pgdir i
    if Present pde then
      kfree L (p2v (pteAddr pde)) s >>= fun s => freeTables pgdir n (i + 1) s
    else freeTables pgdir n (i + 1) s

def freevm (pgdir : ℕ) (s : Kernel) : Except Fault Kernel :=
  deallocuvm L pgdir kernbase 0 s >>= fun r =>
    freeTables L pgdir npdentries 0 r.2 >>= fun s => kfree L pgdir s

/-- The loop of `setupkvm` over the mappings of the kernel. -/
def mapKernel (pgdir : ℕ) : List Kmap → Kernel → Except Fault (Option ℕ × Kernel)
  | [], s => .ok (some pgdir, s)
  | k :: ks, s =>
    mappages pgdir k.virt k.size (BitVec.ofNat 32 k.physStart) k.perm s >>= fun r =>
      if r.1 < 0 then freevm L pgdir r.2 >>= fun s => .ok (none, s) else mapKernel pgdir ks r.2

def setupkvm (s : Kernel) : Except Fault (Option ℕ × Kernel) :=
  match kalloc s with
  | none => .ok (none, s)
  | some (pgdir, s) =>
    if phystop + kernbase > devspace then .error (.panic "PHYSTOP too high")
    else mapKernel L pgdir (kmap L) { s with mem := fill s.mem pgdir 0 }

def allocuvmLoop (pgdir oldsz newsz : ℕ) : ℕ → ℕ → Kernel → Except Fault (ℕ × Kernel)
  | 0, _, _ => .error .diverges
  | n + 1, a, s =>
    if a < newsz then
      match kalloc s with
      | none => deallocuvm L pgdir newsz oldsz s >>= fun r => .ok (0, r.2)
      | some (mem, s) =>
        mappages pgdir a pgsize (v2p mem) (pteW ||| pteU) { s with mem := fill s.mem mem 0 } >>=
          fun r =>
            if r.1 < 0 then
              deallocuvm L pgdir newsz oldsz r.2 >>= fun r =>
                kfree L mem r.2 >>= fun s => .ok (0, s)
            else allocuvmLoop pgdir oldsz newsz n ((a + pgsize) % 4294967296) r.2
    else .ok (newsz, s)

def allocuvm (pgdir oldsz newsz : ℕ) (s : Kernel) : Except Fault (ℕ × Kernel) :=
  if newsz ≥ kernbase then .ok (0, s)
  else if newsz < oldsz then .ok (oldsz, s)
  else allocuvmLoop L pgdir oldsz newsz (allPages + 1) (pgroundup oldsz) s

def clearpteu (pgdir uva : ℕ) (s : Kernel) : Except Fault Kernel :=
  match walkpgdir pgdir uva false s with
  | (none, _) => .error (.panic "clearpteu")
  | (some pte, s) =>
    .ok { s with
      mem := setEntry s.mem pte.page pte.index (entry s.mem pte.page pte.index &&& ~~~pteU) }

/-- The loop of `copyuvm`, with what follows the label `bad` at its two exits. -/
def copyuvmLoop (pgdir sz d : ℕ) : ℕ → ℕ → Kernel → Except Fault (Option ℕ × Kernel)
  | 0, _, _ => .error .diverges
  | n + 1, i, s =>
    if i < sz then
      match walkpgdir pgdir i false s with
      | (none, _) => .error (.panic "copyuvm: pte should exist")
      | (some pte, s) =>
        let e := entry s.mem pte.page pte.index
        if ¬Present e then .error (.panic "copyuvm: page not present")
        else
          match kalloc s with
          | none => freevm L d s >>= fun s => .ok (none, s)
          | some (mem, s) =>
            mappages d i pgsize (v2p mem) (pteFlags e)
                { s with mem := Function.update s.mem mem (s.mem (p2v (pteAddr e))) } >>= fun r =>
              if r.1 < 0 then
                kfree L mem r.2 >>= fun s => freevm L d s >>= fun s => .ok (none, s)
              else copyuvmLoop pgdir sz d n ((i + pgsize) % 4294967296) r.2
    else .ok (some d, s)

def copyuvm (pgdir sz : ℕ) (s : Kernel) : Except Fault (Option ℕ × Kernel) :=
  setupkvm L s >>= fun r =>
    match r.1 with
    | none => .ok (none, r.2)
    | some d => copyuvmLoop L pgdir sz d (allPages + 1) 0 r.2

/-- The entry is read without a look at the pointer to it. -/
def uva2ka (pgdir uva : ℕ) (s : Kernel) : Except Fault (Option ℕ) :=
  match walkpgdir pgdir uva false s with
  | (none, _) => .error .nullPointer
  | (some pte, s) =>
    let e := entry s.mem pte.page pte.index
    if ¬Present e then .ok none
    else if ¬User e then .ok none
    else .ok (some (p2v (pteAddr e)))

/-- The loop of `copyout`, which copies at least one byte in each step. -/
def copyoutLoop (pgdir : ℕ) : ℕ → ℕ → List Byte → Kernel → Except Fault (ℤ × Kernel)
  | _, _, [], s => .ok (0, s)
  | 0, _, _ :: _, _ => .error .diverges
  | n + 1, va, buf, s =>
    let va0 := pgrounddown va
    uva2ka pgdir va0 s >>= fun pa0 =>
      match pa0 with
      | none => .ok (-1, s)
      | some f =>
        let k := min (pgsize - (va - va0)) buf.length
        copyoutLoop pgdir n ((va0 + pgsize) % 4294967296) (buf.drop k)
          { s with mem := Function.update s.mem f (writeBytes (s.mem f) (va - va0) (buf.take k)) }

def copyout (pgdir va : ℕ) (p : List Byte) (s : Kernel) : Except Fault (ℤ × Kernel) :=
  copyoutLoop pgdir p.length va p s

/-- The fields of a process and of its trap frame that growproc and exec change. -/
structure Proc where
  sz : ℕ
  pgdir : ℕ
  eip : Word
  esp : ℕ
  name : List Byte

def growproc (n : ℤ) (p : Proc) (s : Kernel) : Except Fault (ℤ × Proc × Kernel) :=
  let newsz := (((p.sz : ℤ) + n) % 4294967296).toNat
  if n > 0 then
    allocuvm L p.pgdir p.sz newsz s >>= fun r =>
      if r.1 = 0 then .ok (-1, p, r.2) else .ok (0, { p with sz := r.1 }, r.2)
  else if n < 0 then
    deallocuvm L p.pgdir p.sz newsz s >>= fun r =>
      if r.1 = 0 then .ok (-1, p, r.2) else .ok (0, { p with sz := r.1 }, r.2)
  else .ok (0, p, s)

end PageTables
