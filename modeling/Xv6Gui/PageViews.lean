import Xv6Gui.PageTables

/-!
# The tables and pages of an address space

A page directory maps the number of a table to the page that holds it, and the number of a page
to its entry. A write to memory is seen in these maps only where it hits the directory or one of
its tables.
-/
namespace PageViews

open WordMemory PageEntries PageTables

def tableOf (mem : Pages) (pgdir i : ℕ) : Option ℕ :=
  if i < 1024 ∧ Present (entry mem pgdir i) then some (frame (entry mem pgdir i)) else none

/-- The entry of a page that is present. -/
def pageOf (mem : Pages) (pgdir p : ℕ) : Option Word :=
  (tableOf mem pgdir (p / 1024)).bind fun t =>
    if Present (entry mem t (p % 1024)) then some (entry mem t (p % 1024)) else none

/-- Tables are apart from the directory and from each other. -/
structure Apart (mem : Pages) (pgdir : ℕ) : Prop where
  ne_dir : ∀ i t, tableOf mem pgdir i = some t → t ≠ pgdir
  once : ∀ i j t, tableOf mem pgdir i = some t → tableOf mem pgdir j = some t → i = j

variable {mem mem' : Pages} {d t f g i j p q va : ℕ} {v : Word} {s : Kernel}

section Allocator

variable {L : Layout} {rest : List ℕ}

theorem kalloc_nil (h : s.freelist = []) : kalloc s = none := by rw [kalloc, h]

theorem kalloc_cons (h : s.freelist = f :: rest) :
    kalloc s = some (f, { s with freelist := rest }) := by
  rw [kalloc, h]

theorem kfree_eq (h : L.Valid f) : kfree L f s = .ok ⟨fill s.mem f 1, f :: s.freelist⟩ :=
  if_neg (not_not_intro h)

/-- The loops over addresses go from one page to the next. -/
theorem next_page (h : q < 1048575) : (4096 * q + pgsize) % 4294967296 = 4096 * (q + 1) := by
  dsimp only [pgsize]
  omega

end Allocator

section Entries

theorem entry_congr (h : mem' t = mem t) : entry mem' t = entry mem t := by
  funext i
  rw [entry, entry, h]

theorem setEntry_of_ne (h : g ≠ t) (i : ℕ) (v : Word) : setEntry mem t i v g = mem g :=
  Function.update_of_ne h _ _

theorem fill_of_ne (h : g ≠ f) (c : Byte) : fill mem f c g = mem g :=
  Function.update_of_ne h _ _

theorem entry_setEntry_self (mem : Pages) (t i : ℕ) (v : Word) :
    entry (setEntry mem t i v) t i = v := by
  rw [entry, setEntry, Function.update_self, word_storeWord]

theorem entry_setEntry_of_ne (h : j ≠ i) (mem : Pages) (t : ℕ) (v : Word) :
    entry (setEntry mem t i v) t j = entry mem t j := by
  rw [entry, setEntry, Function.update_self, entry]
  apply word_congr
  intro b hb hb'
  exact storeWord_outside _ _ (by omega)

theorem entry_fill_zero (mem : Pages) (t i : ℕ) : entry (fill mem t 0) t i = 0 := by
  rw [entry, fill, Function.update_self, word]
  decide

end Entries

section Maps

theorem tableOf_congr (h : mem' d = mem d) : tableOf mem' d = tableOf mem d := by
  funext i
  rw [tableOf, tableOf, entry_congr h]

theorem pageOf_congr (ht : tableOf mem' d (p / 1024) = tableOf mem d (p / 1024))
    (h : ∀ t, tableOf mem d (p / 1024) = some t → mem' t = mem t) :
    pageOf mem' d p = pageOf mem d p := by
  rw [pageOf, pageOf, ht]
  cases hi : tableOf mem d (p / 1024) with
  | none => rfl
  | some t => simp only [Option.bind_some, entry_congr (h t hi)]

theorem tableOf_lt (h : tableOf mem d i = some t) : i < 1024 := by
  by_contra hi
  rw [tableOf, if_neg fun hc => hi hc.1] at h
  cases h

theorem frame_of_table (h : tableOf mem d i = some t) : frame (entry mem d i) = t := by
  rw [tableOf] at h
  split at h
  · exact Option.some.inj h
  · cases h

theorem present_of_table (h : tableOf mem d i = some t) : Present (entry mem d i) := by
  by_contra hn
  rw [tableOf, if_neg fun hc => hn hc.2] at h
  cases h

theorem not_present_of_table (hi : i < 1024) (h : tableOf mem d i = none) :
    ¬Present (entry mem d i) := by
  intro hp
  rw [tableOf, if_pos ⟨hi, hp⟩] at h
  cases h

theorem pageOf_table (ht : tableOf mem d (p / 1024) = some t) :
    pageOf mem d p =
      if Present (entry mem t (p % 1024)) then some (entry mem t (p % 1024))
      else none := by
  rw [pageOf, ht, Option.bind_some]

theorem pageOf_none (ht : tableOf mem d (p / 1024) = none) : pageOf mem d p = none := by
  rw [pageOf, ht, Option.bind_none]

theorem not_present_of_page (ht : tableOf mem d (p / 1024) = some t)
    (h : pageOf mem d p = none) : ¬Present (entry mem t (p % 1024)) := by
  intro hp
  rw [pageOf_table ht, if_pos hp] at h
  cases h

theorem table_of_page (h : pageOf mem d p = some v) :
    ∃ t, tableOf mem d (p / 1024) = some t ∧ entry mem t (p % 1024) = v ∧
      Present v := by
  cases ht : tableOf mem d (p / 1024) with
  | none =>
    rw [pageOf_none ht] at h
    cases h
  | some t =>
    rw [pageOf_table ht] at h
    split at h
    · next hp =>
      obtain rfl := Option.some.inj h
      exact ⟨t, rfl, rfl, hp⟩
    · cases h

end Maps

section Walks

theorem pdx_eq (h : va < 4294967296) : pdx va = va / 4096 / 1024 := by
  simp only [pdx]
  omega

theorem ptx_eq (va : ℕ) : ptx va = va / 4096 % 1024 := rfl

theorem pgrounddown_add {o : ℕ} (ho : o < 4096) (p : ℕ) :
    pgrounddown (4096 * p + o) = 4096 * p := by
  dsimp only [pgrounddown, pgsize]
  omega

theorem walk_table (hva : va < 4294967296)
    (ht : tableOf s.mem d (va / 4096 / 1024) = some t) (alloc : Bool) :
    walkpgdir d va alloc s = (some ⟨t, va / 4096 % 1024⟩, s) := by
  rw [← pdx_eq hva] at ht
  simp only [walkpgdir, if_pos (present_of_table ht), ptx_eq]
  exact congrArg (fun t => (some (Pte.mk t _), s)) (frame_of_table ht)

theorem walk_no_table (hva : va < 4294967296)
    (ht : tableOf s.mem d (va / 4096 / 1024) = none) :
    walkpgdir d va false s = (none, s) := by
  have hi : va / 4096 / 1024 < 1024 := by omega
  rw [← pdx_eq hva] at ht hi
  simp only [walkpgdir, if_neg (not_present_of_table hi ht), if_pos]

theorem walk_full (hva : va < 4294967296)
    (ht : tableOf s.mem d (va / 4096 / 1024) = none) (hfree : s.freelist = []) :
    walkpgdir d va true s = (none, s) := by
  have hi : va / 4096 / 1024 < 1024 := by omega
  rw [← pdx_eq hva] at ht hi
  simp only [walkpgdir, if_neg (not_present_of_table hi ht), kalloc, hfree]
  rfl

/-- Memory after a new table has been put on page `f`. -/
def withTable (mem : Pages) (d i f : ℕ) : Pages :=
  setEntry (fill mem f 0) d i (v2p f ||| pteP ||| pteW ||| pteU)

theorem walk_new_table (hva : va < 4294967296)
    (ht : tableOf s.mem d (va / 4096 / 1024) = none) {rest : List ℕ}
    (hfree : s.freelist = f :: rest) :
    walkpgdir d va true s = (some ⟨f, va / 4096 % 1024⟩,
      ⟨withTable s.mem d (va / 4096 / 1024) f, rest⟩) := by
  have hi : va / 4096 / 1024 < 1024 := by omega
  rw [← pdx_eq hva] at ht hi ⊢
  simp only [walkpgdir, if_neg (not_present_of_table hi ht), kalloc, hfree, ptx_eq]
  rfl

end Walks

section Updates

theorem withTable_of_ne (hd : g ≠ d) (hf : g ≠ f) (i : ℕ) : withTable mem d i f g = mem g := by
  rw [withTable, setEntry_of_ne hd, fill_of_ne hf]

theorem withTable_table (hf : f ≠ d) (i j : ℕ) : entry (withTable mem d i f) f j = 0 := by
  rw [withTable, entry_congr (setEntry_of_ne hf _ _), entry_fill_zero]

theorem tableOf_withTable (hi : i < 1024) (hf : f < 1048576) (hne : f ≠ d) (j : ℕ) :
    tableOf (withTable mem d i f) d j = if j = i then some f else tableOf mem d j := by
  have hentry : v2p f ||| pteP ||| pteW ||| pteU = v2p f ||| (pteW ||| pteU) ||| pteP := by
    rw [BitVec.or_assoc, BitVec.or_assoc, BitVec.or_comm pteP, ← BitVec.or_assoc (v2p f)]
  have hperm : Perm (pteW ||| pteU) := perm_user
  by_cases hj : j = i
  case pos =>
    have hself := entry_setEntry_self (fill mem f 0) d i (v2p f ||| pteP ||| pteW ||| pteU)
    rw [if_pos hj, hj, tableOf, withTable, hself, hentry,
      if_pos ⟨hi, present_entry _ _⟩, frame_entry hperm hf]
  case neg =>
    have hsame : entry (withTable mem d i f) d j = entry mem d j := by
      rw [withTable, entry_setEntry_of_ne hj, entry_congr (fill_of_ne hne.symm 0)]
    rw [if_neg hj, tableOf, hsame, tableOf]

theorem pageOf_withTable (hi : i < 1024) (hf : f < 1048576) (hne : f ≠ d)
    (h : Apart mem d) (hnone : tableOf mem d i = none)
    (hfresh : ∀ j, tableOf mem d j ≠ some f) (p : ℕ) :
    pageOf (withTable mem d i f) d p = pageOf mem d p := by
  by_cases hp : p / 1024 = i
  case pos =>
    have ht : tableOf (withTable mem d i f) d (p / 1024) = some f := by
      rw [tableOf_withTable hi hf hne, if_pos hp]
    rw [pageOf_table ht, withTable_table hne, if_neg not_present_zero, pageOf_none (hp ▸ hnone)]
  case neg =>
    apply pageOf_congr
    · rw [tableOf_withTable hi hf hne, if_neg hp]
    · intro t ht
      have htf : t ≠ f := fun he => hfresh _ (he ▸ ht)
      exact withTable_of_ne (h.ne_dir _ t ht) htf i

theorem tableOf_setEntry (hne : t ≠ d) (i : ℕ) (v : Word) :
    tableOf (setEntry mem t i v) d = tableOf mem d :=
  tableOf_congr (setEntry_of_ne hne.symm i v)

/-- A store to an entry of a table is seen at one page. -/
theorem pageOf_setEntry (h : Apart mem d) (ht : tableOf mem d (p / 1024) = some t)
    (v : Word) (q : ℕ) :
    pageOf (setEntry mem t (p % 1024) v) d q =
      if q = p then (if Present v then some v else none) else pageOf mem d q := by
  have htables : tableOf (setEntry mem t (p % 1024) v) d = tableOf mem d :=
    tableOf_setEntry (h.ne_dir _ t ht) _ _
  by_cases hq : q = p
  case pos =>
    have ht' : tableOf (setEntry mem t (p % 1024) v) d (p / 1024) = some t := by
      rw [htables, ht]
    rw [if_pos hq, hq, pageOf_table ht', entry_setEntry_self]
  case neg =>
    rw [if_neg hq]
    by_cases hsame : q / 1024 = p / 1024
    case pos =>
      -- another entry of the same table
      have hne : q % 1024 ≠ p % 1024 := by omega
      have hqt : tableOf mem d (q / 1024) = some t := by rw [hsame, ht]
      have hqt' : tableOf (setEntry mem t (p % 1024) v) d (q / 1024) = some t := by
        rw [htables, hqt]
      rw [pageOf_table hqt', pageOf_table hqt, entry_setEntry_of_ne hne]
    case neg =>
      apply pageOf_congr
      · rw [htables]
      · intro u hu
        have hut : u ≠ t := fun he => hsame (h.once _ _ t (he ▸ hu) ht)
        exact setEntry_of_ne hut _ _

end Updates

end PageViews
