import Xv6Gui.ByteCopies
import Xv6Gui.PixelBuffers

/-!
# Images copied row by row

What it means that a list of byte copies draws one image into another, on an area and with a source
for each pixel of it, and the two memmove functions that drawing is made of.
-/
namespace ImageCopies

open WindowManagerState RectOutlines PixelBuffers ByteCopies

namespace User

/-- ulib.c: the count is an int, and one below zero copies nothing. -/
def memmove (dst src n : ℤ) : List Copy := (List.range n.toNat).map (copyAt dst src)

end User

namespace Kernel

/-- string.c: the count is unsigned, and a block that starts below one it overlaps is copied from
its end. -/
def memmove (dst src n : ℤ) : List Copy :=
  let n := n % 4294967296
  let up := (List.range n.toNat).map (copyAt dst src)
  if src < dst ∧ (src + n) % 4294967296 > dst then up.reverse else up

end Kernel

/-- The copies set the pixels of the area from their sources and no others, and stay in the two
buffers. -/
structure Draws (b s : Raster) (Area : ℤ → ℤ → Prop) (source : ℤ → ℤ → ℤ × ℤ) (l : List Copy) :
    Prop where
  drawn : ∀ mem r c, Area r c →
    pixel (copyBytes l mem) (b.address r c) = pixel mem (s.address (source r c).1 (source r c).2)
  kept : ∀ mem r c, b.Contains r c → ¬ Area r c →
    pixel (copyBytes l mem) (b.address r c) = pixel mem (b.address r c)
  writes : ∀ cp ∈ l, b.Holds cp.dst
  reads : ∀ cp ∈ l, s.Holds cp.src

theorem User.mem_memmove {dst src n : ℤ} {cp : Copy} :
    cp ∈ User.memmove dst src n ↔ ∃ k : ℕ, (k : ℤ) < n ∧ cp = copyAt dst src k := by
  rw [User.memmove, List.mem_map]
  refine exists_congr fun k => and_congr ?_ eq_comm
  rw [List.mem_range]
  omega

theorem Kernel.mem_memmove {dst src n : ℤ} {cp : Copy} :
    cp ∈ Kernel.memmove dst src n ↔
      ∃ k : ℕ, (k : ℤ) < n % 4294967296 ∧ cp = copyAt dst src k := by
  have hup : cp ∈ (List.range (n % 4294967296).toNat).map (copyAt dst src) ↔
      ∃ k : ℕ, (k : ℤ) < n % 4294967296 ∧ cp = copyAt dst src k := User.mem_memmove
  rw [← hup, Kernel.memmove]
  split
  · exact List.mem_reverse
  · exact Iff.rfl

/-- Byte `e` of the pixel that is `j` columns further. -/
theorem byte_of_row {b : Raster} {r c : ℤ} {j e : ℕ} (h : b.Contains r (c + j)) (he : e < 3) :
    (b.address r c + (3 * j + e : ℕ)) % 4294967296 = b.address r (c + j) + e := by
  have hh := h.holds (k := e) (by omega) (by omega)
  have hb := b.base_nonneg
  have hf := b.fits
  rw [h.address_eq] at hh ⊢
  unfold Raster.Holds at hh
  unfold Raster.address advance
  omega

theorem copyAt_pixel {b s : Raster} {r c r' c' : ℤ} {j e : ℕ} (hb : b.Contains r (c + j))
    (hs : s.Contains r' (c' + j)) (he : e < 3) :
    copyAt (b.address r c) (s.address r' c') (3 * j + e) =
      ⟨b.address r (c + j) + e, s.address r' (c' + j) + e⟩ := by
  rw [copyAt, byte_of_row hb he, byte_of_row hs he]

/-- The bytes of a piece of a row, pixel by pixel. -/
theorem mem_row {b s : Raster} {r c r' c' m : ℤ} {cp : Copy}
    (hb : ∀ j, 0 ≤ j → j < m → b.Contains r (c + j))
    (hs : ∀ j, 0 ≤ j → j < m → s.Contains r' (c' + j)) :
    (∃ k : ℕ, (k : ℤ) < 3 * m ∧ cp = copyAt (b.address r c) (s.address r' c') k) ↔
      ∃ j e, (0 ≤ j ∧ j < m) ∧ (0 ≤ e ∧ e < 3) ∧
        cp = ⟨b.address r (c + j) + e, s.address r' (c' + j) + e⟩ := by
  constructor
  · rintro ⟨k, hk, rfl⟩
    have hj : 0 ≤ ((k / 3 : ℕ) : ℤ) ∧ ((k / 3 : ℕ) : ℤ) < m := by omega
    refine ⟨(k / 3 : ℕ), (k % 3 : ℕ), hj, by omega, ?_⟩
    rw [← copyAt_pixel (hb _ hj.1 hj.2) (hs _ hj.1 hj.2) (Nat.mod_lt k (by decide)),
      Nat.div_add_mod]
  · rintro ⟨j, e, hj, he, rfl⟩
    obtain ⟨n, rfl⟩ := Int.eq_ofNat_of_zero_le hj.1
    obtain ⟨d, rfl⟩ := Int.eq_ofNat_of_zero_le he.1
    exact ⟨3 * n + d, by omega,
      (copyAt_pixel (hb _ hj.1 hj.2) (hs _ hj.1 hj.2) (by omega)).symm⟩

section Drawings

variable {b s : Raster} {Area : ℤ → ℤ → Prop} {source : ℤ → ℤ → ℤ × ℤ} {l : List Copy}

/-- A list whose copies are those of the pixels of the area draws them, in whatever order. -/
theorem draws_of_mem (hd : b.Disjoint s)
    (hA : ∀ r c, Area r c → b.Contains r c ∧ s.Contains (source r c).1 (source r c).2)
    (hl : ∀ cp, cp ∈ l ↔ ∃ r c k, Area r c ∧ (0 ≤ k ∧ k < 3) ∧
      cp = ⟨b.address r c + k, s.address (source r c).1 (source r c).2 + k⟩) :
    Draws b s Area source l := by
  have hw : ∀ cp ∈ l, b.Holds cp.dst := by
    intro cp hcp
    obtain ⟨r, c, k, ha, hk, rfl⟩ := (hl cp).mp hcp
    exact (hA r c ha).1.holds hk.1 hk.2
  have hr : ∀ cp ∈ l, s.Holds cp.src := by
    intro cp hcp
    obtain ⟨r, c, k, ha, hk, rfl⟩ := (hl cp).mp hcp
    exact (hA r c ha).2.holds hk.1 hk.2
  refine ⟨?_, ?_, hw, hr⟩
  · intro mem r c ha
    apply pixel_congr
    intro k h0 hk
    have hsep : ∀ cp ∈ l, ∀ d ∈ l, cp.src ≠ d.dst := fun cp hcp d hdl he =>
      hd d.dst (hw d hdl) (he ▸ hr cp hcp)
    obtain ⟨cp, hcp, hdst, hv⟩ := copyBytes_source hsep
      ⟨_, (hl _).mpr ⟨r, c, k, ha, ⟨h0, hk⟩, rfl⟩, rfl⟩ mem
    obtain ⟨r', c', k', ha', hk', rfl⟩ := (hl cp).mp hcp
    obtain ⟨⟨rfl, rfl⟩, rfl⟩ := (hA r' c' ha').1.byte_unique (hA r c ha).1 hk'.1 hk'.2 h0 hk hdst
    exact hv
  · intro mem r c hc hno
    apply pixel_congr
    intro k h0 hk
    apply copyBytes_of_not_mem
    intro cp hcp hdst
    obtain ⟨r', c', k', ha', hk', rfl⟩ := (hl cp).mp hcp
    obtain ⟨⟨rfl, rfl⟩, -⟩ := (hA r' c' ha').1.byte_unique hc hk'.1 hk'.2 h0 hk hdst
    exact hno ha'

/-- Nothing is copied, and nothing is to be drawn. -/
theorem draws_of_none (hd : b.Disjoint s) (hA : ∀ r c, ¬ Area r c) (hl : ∀ cp, cp ∉ l) :
    Draws b s Area source l := by
  refine draws_of_mem hd (fun r c h => absurd h (hA r c)) fun cp => iff_of_false (hl cp) ?_
  rintro ⟨r, c, k, h, -⟩
  exact hA r c h

/-- A list of rows, each copied from one column on, draws the rows that are inside the limit. -/
theorem draws_of_rows {limit n y m c₀ d₀ : ℤ} {row : ℤ → ℤ} (hd : b.Disjoint s)
    (hA : ∀ r c, Area r c ↔ (max 0 y ≤ r ∧ r < min limit (y + n)) ∧ c₀ ≤ c ∧ c < c₀ + m)
    (hin : ∀ r c, Area r c → b.Contains r c ∧ s.Contains (source r c).1 (source r c).2)
    (hsource : ∀ i j, source (y + i) (c₀ + j) = (row i, d₀ + j))
    (hl : ∀ cp, cp ∈ l ↔ ∃ i : ℕ, (i : ℤ) < n ∧ (0 ≤ y + i ∧ y + i ≤ limit - 1) ∧
      ∃ k : ℕ, (k : ℤ) < 3 * m ∧
        cp = copyAt (b.address (y + i) c₀) (s.address (row i) d₀) k) :
    Draws b s Area source l := by
  have hrow : ∀ i : ℕ, (i : ℤ) < n → 0 ≤ y + i ∧ y + i ≤ limit - 1 → ∀ cp,
      (∃ k : ℕ, (k : ℤ) < 3 * m ∧ cp = copyAt (b.address (y + i) c₀) (s.address (row i) d₀) k) ↔
      ∃ j e, (0 ≤ j ∧ j < m) ∧ (0 ≤ e ∧ e < 3) ∧
        cp = ⟨b.address (y + i) (c₀ + j) + e, s.address (row i) (d₀ + j) + e⟩ := by
    intro i hi hyi cp
    have harea : ∀ j, 0 ≤ j → j < m → Area (y + i) (c₀ + j) := by
      intro j h0 hj
      rw [hA]
      omega
    apply mem_row
    · intro j h0 hj
      exact (hin _ _ (harea j h0 hj)).1
    · intro j h0 hj
      have hs := (hin _ _ (harea j h0 hj)).2
      rwa [hsource] at hs
  refine draws_of_mem hd hin ?_
  intro cp
  rw [hl]
  constructor
  · rintro ⟨i, hi, hyi, hcp⟩
    obtain ⟨j, e, hj, he, rfl⟩ := (hrow i hi hyi cp).mp hcp
    refine ⟨y + i, c₀ + j, e, (hA _ _).mpr (by omega), he, ?_⟩
    rw [hsource]
  · rintro ⟨r, c, e, ha, he, rfl⟩
    obtain ⟨hr, hc⟩ := (hA r c).mp ha
    obtain ⟨i, hi⟩ := Int.eq_ofNat_of_zero_le (show 0 ≤ r - y by omega)
    obtain rfl : r = y + i := by omega
    obtain ⟨j, rfl⟩ : ∃ j, c = c₀ + j := ⟨c - c₀, by omega⟩
    refine ⟨i, by omega, by omega, (hrow i (by omega) (by omega) _).mpr
      ⟨j, e, by omega, he, ?_⟩⟩
    rw [hsource]

/-- A byte that is written belongs to a pixel of the area: elsewhere some memory would change. -/
theorem Draws.area_of_mem (h : Draws b s Area source l) (hd : b.Disjoint s) {cp : Copy}
    (hcp : cp ∈ l) : ∃ r c k, Area r c ∧ (0 ≤ k ∧ k < 3) ∧ cp.dst = b.address r c + k := by
  obtain ⟨r, c, k, hc, hk, ha⟩ := (h.writes cp hcp).pixel
  refine ⟨r, c, k, ?_, hk, ha⟩
  by_contra hno
  have hsep : ∀ c ∈ l, ∀ d ∈ l, c.src ≠ d.dst := fun c hcl d hdl he =>
    hd d.dst (h.writes d hdl) (he ▸ h.reads c hcl)
  let mem : Bytes := fun a => if a = cp.dst then 1 else 0
  obtain ⟨d, hdl, -, hv⟩ := copyBytes_source hsep ⟨cp, hcp, rfl⟩ mem
  have hkeep := pixel_byte (h.kept mem r c hc hno) hk.1 hk.2
  rw [← ha, hv] at hkeep
  simp only [mem, if_neg (hsep d hdl cp hcp), if_true] at hkeep
  exact absurd hkeep (by decide)

end Drawings

end ImageCopies
