import Mathlib.Data.Int.Basic
import Mathlib.Logic.Function.Basic

/-!
# Copies of bytes

A run of assignments `*d = *s` of single bytes in an address space of 32 bits. When no byte that
is read is also written, the order of the assignments does not matter.
-/
namespace ByteCopies

/-- The memory, byte by byte. -/
abbrev Bytes := ℤ → UInt8

/-- `*dst = *src` -/
structure Copy where
  dst : ℤ
  src : ℤ
  deriving DecidableEq, Repr

/-- The assignments, in order. -/
def copyBytes : List Copy → Bytes → Bytes
  | [], mem => mem
  | c :: l, mem => copyBytes l (Function.update mem c.dst (mem c.src))

/-- The assignment of byte `k` of two blocks. -/
def copyAt (dst src : ℤ) (k : ℕ) : Copy := ⟨(dst + k) % 4294967296, (src + k) % 4294967296⟩

section Runs

variable {l : List Copy} {a : ℤ}

theorem copyBytes_of_not_mem (h : ∀ c ∈ l, c.dst ≠ a) (mem : Bytes) :
    copyBytes l mem a = mem a := by
  induction l generalizing mem with
  | nil => rfl
  | cons c l ih =>
    rw [copyBytes, ih fun d hd => h d (List.mem_cons_of_mem c hd)]
    exact Function.update_of_ne (h c List.mem_cons_self).symm _ _

/-- A byte that is written gets what one of its sources held at the start. -/
theorem copyBytes_source (hsep : ∀ c ∈ l, ∀ d ∈ l, c.src ≠ d.dst) (ha : ∃ c ∈ l, c.dst = a)
    (mem : Bytes) : ∃ c ∈ l, c.dst = a ∧ copyBytes l mem a = mem c.src := by
  induction l generalizing mem with
  | nil =>
    obtain ⟨c, hc, -⟩ := ha
    cases hc
  | cons c l ih =>
    have hl : ∀ d ∈ l, ∀ e ∈ l, d.src ≠ e.dst := fun d hd e he =>
      hsep d (List.mem_cons_of_mem c hd) e (List.mem_cons_of_mem c he)
    by_cases hw : ∃ d ∈ l, d.dst = a
    case pos =>
      obtain ⟨d, hd, hda, hv⟩ := ih hl hw (Function.update mem c.dst (mem c.src))
      refine ⟨d, List.mem_cons_of_mem c hd, hda, ?_⟩
      rw [copyBytes, hv]
      exact Function.update_of_ne (hsep d (List.mem_cons_of_mem c hd) c List.mem_cons_self) _ _
    case neg =>
      have hca : c.dst = a := by
        obtain ⟨d, hd, hda⟩ := ha
        rcases List.mem_cons.mp hd with rfl | hd
        · exact hda
        · exact absurd ⟨d, hd, hda⟩ hw
      refine ⟨c, List.mem_cons_self, hca, ?_⟩
      rw [copyBytes, copyBytes_of_not_mem fun d hd hda => hw ⟨d, hd, hda⟩, ← hca]
      exact Function.update_self _ _ _

end Runs

end ByteCopies
