import Xv6Gui.SpaceCopies

/-!
# Copying to user addresses

uva2ka and copyout of vm.c. The copy goes page by page and stops at the first page that is not
the user's. Where that page has no table, walkpgdir returns a null pointer, which uva2ka reads
through.
-/
namespace CopyOut

open WordMemory PageEntries PageTables PageViews PageOwnership UserMemory AddressSpaces
open SpaceCopies GuardedRuns

/-- The address `k` bytes behind `va`. -/
def addr (va k : ℕ) : ℕ := (va + k) % 4294967296

def Accessible (mem : Pages) (d va : ℕ) : Prop := ∃ e, pageOf mem d (va / 4096) = some e ∧ User e

/-- Where the byte of a user address lies. -/
def locate (mem : Pages) (d va : ℕ) : Option (ℕ × ℕ) :=
  (pageOf mem d (va / 4096)).map fun e => (frame e, va % 4096)

/-- The bytes of the range hold `src`, and no other byte of memory has changed. -/
structure Written (d va : ℕ) (src : List Byte) (s s' : Kernel) : Prop where
  free : s'.freelist = s.freelist
  bytes : ∀ k < src.length, byteAt s'.mem d (addr va k) = src[k]?
  others : ∀ g o, (∀ k < src.length, locate s.mem d (addr va k) ≠ some (g, o)) →
    s'.mem g o = s.mem g o

/-- The first page of the range that the user may not access, if there is one, has a table. -/
def NoHole (mem : Pages) (d va len : ℕ) : Prop :=
  ∀ k < len, (∀ j < k, Accessible mem d (addr va j)) →
    (tableOf mem d (addr va k / 4096 / 1024)).isSome

/-- What a call of `copyout` that comes to an end has done. -/
structure Ended (d va : ℕ) (src : List Byte) (s : Kernel) (r : ℤ) (s' : Kernel) : Prop where
  free : s'.freelist = s.freelist
  touched : Touched s.mem s'.mem d
  result : r = 0 ∧ (∀ k < src.length, Accessible s.mem d (addr va k)) ∧ Written d va src s s' ∨
    r = -1 ∧ ∃ k < src.length, ¬Accessible s.mem d (addr va k)

variable {L : Layout} {d f k m n p va : ℕ} {src : List Byte} {e : Word} {s s₁ s' : Kernel}
  {mem : Pages}

theorem addr_addr (va k j : ℕ) : addr (addr va k) j = addr va (k + j) := by
  simp only [addr]
  omega

theorem addr_zero (h : va < 4294967296) : addr va 0 = va := by
  simp only [addr]
  omega

section Walking

variable (hp : p < 1048576)

include hp

theorem uva2ka_hole (ht : tableOf s.mem d (p / 1024) = none) :
    uva2ka d (4096 * p) s = .error .nullPointer := by
  have hpage : 4096 * p / 4096 = p := by omega
  rw [uva2ka, walk_no_table (by omega) (hpage.symm ▸ ht)]

theorem uva2ka_denied (ht : (tableOf s.mem d (p / 1024)).isSome)
    (hno : ¬∃ e, pageOf s.mem d p = some e ∧ User e) : uva2ka d (4096 * p) s = .ok none := by
  have hpage : 4096 * p / 4096 = p := by omega
  obtain ⟨t, ht⟩ := Option.isSome_iff_exists.mp ht
  rw [uva2ka, walk_table (by omega) (hpage.symm ▸ ht), hpage]
  cases he : pageOf s.mem d p with
  | none => simp only [if_pos (not_present_of_page ht he)]
  | some e =>
    obtain ⟨t', ht', hentry, hpresent⟩ := table_of_page he
    obtain rfl : t = t' := Option.some.inj (ht.symm.trans ht')
    have huser : ¬User e := fun hu => hno ⟨e, he, hu⟩
    simp only [hentry, if_neg (not_not_intro hpresent), if_pos huser]

theorem uva2ka_page (he : pageOf s.mem d p = some e) (hu : User e) :
    uva2ka d (4096 * p) s = .ok (some (frame e)) := by
  have hpage : 4096 * p / 4096 = p := by omega
  obtain ⟨t, ht, hentry, hpresent⟩ := table_of_page he
  rw [uva2ka, walk_table (by omega) (hpage.symm ▸ ht), hpage]
  simp only [hentry, if_neg (not_not_intro hpresent), if_neg (not_not_intro hu), p2v_pteAddr]

end Walking

section Ranges

theorem accessible_user (h : Space L s.freelist s.mem d) (ha : Accessible s.mem d va) :
    va / 4096 < userPages := by
  obtain ⟨e, he, hu⟩ := ha
  by_contra hge
  exact h.kernel _ e (Nat.le_of_not_lt hge) he hu

theorem accessible_table (ha : Accessible mem d va) :
    (tableOf mem d (va / 4096 / 1024)).isSome := by
  obtain ⟨e, he, -⟩ := ha
  obtain ⟨t, ht, -⟩ := table_of_page he
  rw [ht]
  rfl

theorem noHole_split (ha : ∀ j < k, Accessible mem d (addr va j)) :
    NoHole mem d va n ↔ NoHole mem d (addr va k) (n - k) := by
  constructor
  case mp =>
    intro h i hi hall
    rw [addr_addr]
    refine h (k + i) (by omega) ?_
    intro j hj
    by_cases hjk : j < k
    · exact ha j hjk
    · have hrest := hall (j - k) (by omega)
      rwa [addr_addr, Nat.add_sub_of_le (Nat.le_of_not_lt hjk)] at hrest
  case mpr =>
    intro h i hi hall
    by_cases hik : i < k
    · exact accessible_table (ha i hik)
    · have hrest := h (i - k) (by omega) fun j hj => by
        rw [addr_addr]
        exact hall (k + j) (by omega)
      rwa [addr_addr, Nat.add_sub_of_le (Nat.le_of_not_lt hik)] at hrest

theorem locate_inj (h : Space L s.freelist s.mem d) {a b : ℕ} {x : ℕ × ℕ}
    (ha : locate s.mem d a = some x) (hb : locate s.mem d b = some x)
    (hau : a / 4096 < userPages) (hbu : b / 4096 < userPages) : a = b := by
  obtain ⟨e, he, hx⟩ := Option.map_eq_some_iff.mp ha
  obtain ⟨e', he', hx'⟩ := Option.map_eq_some_iff.mp hb
  obtain ⟨hframe, hoff⟩ := Prod.mk.inj (hx.trans hx'.symm)
  have hkey := h.sound.once (.page (a / 4096)) (.page (b / 4096)) (frame e) (heldBy_page hau he)
    (hframe ▸ heldBy_page hbu he')
  have hpage := Key.page.inj hkey
  omega

end Ranges

section Chunks

variable (h : Space L s.freelist s.mem d)

include h

/-- A part of a page is written. -/
theorem chunk_written (he : pageOf s.mem d (va / 4096) = some e) (hu : User e)
    (hfit : va % 4096 + src.length ≤ 4096) (hfree : s₁.freelist = s.freelist)
    (hmem : s₁.mem =
      Function.update s.mem (frame e) (writeBytes (s.mem (frame e)) (va % 4096) src)) :
    Written d va src s s₁ ∧ Touched s.mem s₁.mem d ∧
      ∀ k < src.length, Accessible s.mem d (addr va k) := by
  have huser : va / 4096 < 524288 := accessible_user h ⟨e, he, hu⟩
  have htouched : Touched s.mem s₁.mem d := by
    rw [hmem]
    exact touched_page (heldBy_page huser he) _
  have haddr : ∀ k < src.length,
      addr va k / 4096 = va / 4096 ∧ addr va k % 4096 = va % 4096 + k := by
    intro k hk
    simp only [addr]
    omega
  refine ⟨⟨hfree, ?_, ?_⟩, htouched, ?_⟩
  · intro k hk
    obtain ⟨hpage, hoff⟩ := haddr k hk
    rw [byteAt, htouched.pageOf_eq h, hpage, hoff, he, Option.map_some, hmem,
      Function.update_self, writeBytes, if_pos (Nat.le_add_right _ _), Nat.add_sub_cancel_left,
      List.getElem?_eq_getElem hk, Option.getD_some]
  · intro g o hout
    by_cases hg : g = frame e
    case pos =>
      have hmiss : ∀ k < src.length, o ≠ va % 4096 + k := by
        rintro k hk rfl
        apply hout k hk
        obtain ⟨hpage, hoff⟩ := haddr k hk
        rw [locate, hpage, hoff, he, Option.map_some, hg]
      rw [hmem, hg, Function.update_self, writeBytes]
      by_cases hle : va % 4096 ≤ o
      · have hlong : src.length ≤ o - va % 4096 := by
          by_contra hlt
          exact hmiss (o - va % 4096) (Nat.lt_of_not_le hlt) (by omega)
        rw [if_pos hle, List.getElem?_eq_none hlong, Option.getD_none]
      · rw [if_neg hle]
    case neg => rw [hmem, Function.update_of_ne hg]
  · intro k hk
    exact ⟨e, (haddr k hk).1.symm ▸ he, hu⟩

omit h in
theorem accessible_congr {mem' : Pages} (hpages : pageOf mem' d = pageOf mem d) (a : ℕ) :
    Accessible mem' d a ↔ Accessible mem d a := by
  rw [Accessible, Accessible, hpages]

/-- A user byte that does not lie in the range reads as before. -/
theorem Written.outside (hw : Written d va src s s₁) (ht : Touched s.mem s₁.mem d)
    (ha : ∀ k < src.length, Accessible s.mem d (addr va k)) {a : ℕ} (hau : a / 4096 < userPages)
    (hout : ∀ k < src.length, addr va k ≠ a) : byteAt s₁.mem d a = byteAt s.mem d a := by
  rw [byteAt, byteAt, ht.pageOf_eq h]
  cases he : pageOf s.mem d (a / 4096) with
  | none => rfl
  | some e =>
    have hhere : locate s.mem d a = some (frame e, a % 4096) := by
      rw [locate, he, Option.map_some]
    rw [Option.map_some, Option.map_some]
    congr 1
    apply hw.others
    intro k hk hsame
    exact hout k hk (locate_inj h hsame hhere (accessible_user h (ha k hk)) hau)

theorem Written.append {src' : List Byte} (hlen : src.length + src'.length < 4294967296)
    (hw : Written d va src s s₁) (ht : Touched s.mem s₁.mem d)
    (ha : ∀ k < src.length, Accessible s.mem d (addr va k))
    (hw' : Written d (addr va src.length) src' s₁ s') (ht' : Touched s₁.mem s'.mem d)
    (ha' : ∀ k < src'.length, Accessible s₁.mem d (addr (addr va src.length) k)) :
    Written d va (src ++ src') s s' := by
  have h₁ : Space L s₁.freelist s₁.mem d := hw.free.symm ▸ ht.space h
  have hpages := ht.pageOf_eq h
  have hlocate : locate s₁.mem d = locate s.mem d := by
    funext a
    rw [locate, locate, hpages]
  refine ⟨hw'.free.trans hw.free, ?_, ?_⟩
  · intro k hk
    rw [List.length_append] at hk
    by_cases hlt : k < src.length
    case pos =>
      -- the second part is written elsewhere
      have hother := hw'.outside h₁ ht' ha' (accessible_user h (ha k hlt)) fun j hj => by
        simp only [addr]
        omega
      rw [hother, hw.bytes k hlt, List.getElem?_append_left hlt]
    case neg =>
      have hge := Nat.le_of_not_lt hlt
      have hrest := hw'.bytes (k - src.length) (by omega)
      rw [addr_addr, Nat.add_sub_of_le hge] at hrest
      rw [hrest, List.getElem?_append_right hge]
  · intro g o hout
    rw [List.length_append] at hout
    rw [hw'.others g o, hw.others g o fun k hk => hout k (by omega)]
    intro k hk
    rw [hlocate, addr_addr]
    exact hout (src.length + k) (by omega)

/-- What happens behind a part that has been written decides what the whole copy does. -/
theorem ended_after {src' : List Byte} {r : ℤ} (hlen : src.length + src'.length < 4294967296)
    (hw : Written d va src s s₁) (ht : Touched s.mem s₁.mem d)
    (ha : ∀ k < src.length, Accessible s.mem d (addr va k))
    (hrest : Ended d (addr va src.length) src' s₁ r s') : Ended d va (src ++ src') s r s' := by
  have hsame := accessible_congr (ht.pageOf_eq h)
  refine ⟨hrest.free.trans hw.free, ht.trans h hrest.touched, ?_⟩
  rw [List.length_append]
  obtain ⟨hr, hall, hw'⟩ | ⟨hr, k, hk, hno⟩ := hrest.result
  · refine .inl ⟨hr, ?_, hw.append h hlen ht ha hw' hrest.touched hall⟩
    intro k hk
    by_cases hlt : k < src.length
    · exact ha k hlt
    · have hrest := (hsame _).mp (hall (k - src.length) (by omega))
      rwa [addr_addr, Nat.add_sub_of_le (Nat.le_of_not_lt hlt)] at hrest
  · rw [hsame, addr_addr] at hno
    exact .inr ⟨hr, src.length + k, by omega, hno⟩

end Chunks

section Steps

variable (hne : src ≠ []) (hva : va < 4294967296)

include hne

theorem copyoutLoop_succ (n va : ℕ) (s : Kernel) : copyoutLoop d (n + 1) va src s =
    uva2ka d (4096 * (va / 4096)) s >>= fun pa0 =>
      match pa0 with
      | none => .ok (-1, s)
      | some f =>
        copyoutLoop d n ((4096 * (va / 4096) + 4096) % 4294967296)
          (src.drop (min (4096 - va % 4096) src.length))
          ⟨Function.update s.mem f (writeBytes (s.mem f) (va % 4096)
            (src.take (min (4096 - va % 4096) src.length))), s.freelist⟩ := by
  have hround : pgrounddown va = 4096 * (va / 4096) := Nat.mul_comm _ _
  have hoff : va - 4096 * (va / 4096) = va % 4096 := by omega
  have hstep := copyoutLoop.eq_3 d va src s n hne
  rw [hround, hoff] at hstep
  exact hstep

include hva

theorem step_hole (ht : tableOf s.mem d (va / 4096 / 1024) = none) :
    copyoutLoop d (n + 1) va src s = .error .nullPointer := by
  rw [copyoutLoop_succ hne, uva2ka_hole (by omega) ht]
  rfl

theorem step_denied (ht : (tableOf s.mem d (va / 4096 / 1024)).isSome)
    (hno : ¬Accessible s.mem d va) : copyoutLoop d (n + 1) va src s = .ok (-1, s) := by
  rw [copyoutLoop_succ hne, uva2ka_denied (by omega) ht hno]
  rfl

theorem step_page (he : pageOf s.mem d (va / 4096) = some e) (hu : User e) :
    copyoutLoop d (n + 1) va src s =
      copyoutLoop d n ((4096 * (va / 4096) + 4096) % 4294967296)
        (src.drop (min (4096 - va % 4096) src.length))
        ⟨Function.update s.mem (frame e) (writeBytes (s.mem (frame e)) (va % 4096)
          (src.take (min (4096 - va % 4096) src.length))), s.freelist⟩ := by
  rw [copyoutLoop_succ hne, uva2ka_page (by omega) he hu]
  rfl

end Steps

theorem copyoutLoop_nil (d n va : ℕ) (s : Kernel) : copyoutLoop d n va [] s = .ok (0, s) := by
  cases n <;> rfl

theorem noHole_nil (mem : Pages) (d va : ℕ) : NoHole mem d va 0 :=
  fun k hk => absurd hk (Nat.not_lt_zero k)

theorem Ended.nil (s : Kernel) : Ended d va [] s 0 s :=
  ⟨rfl, fun _ _ => rfl, .inl ⟨rfl, fun k hk => absurd hk (Nat.not_lt_zero k),
    rfl, fun k hk => absurd hk (Nat.not_lt_zero k), fun _ _ _ => rfl⟩⟩

theorem noHole_denied (hva : va < 4294967296)
    (hsome : (tableOf mem d (va / 4096 / 1024)).isSome) (hno : ¬Accessible mem d va) :
    NoHole mem d va n := by
  intro k _ hall
  cases k with
  | zero => rwa [addr_zero hva]
  | succ k => exact absurd (addr_zero hva ▸ hall 0 (Nat.succ_pos k)) hno

theorem Ended.denied (hva : va < 4294967296) (hpos : 0 < src.length)
    (hno : ¬Accessible s.mem d va) : Ended d va src s (-1) s := by
  refine ⟨rfl, fun _ _ => rfl, .inr ⟨rfl, 0, hpos, ?_⟩⟩
  rwa [addr_zero hva]

/-- The loop goes on behind a piece of `k` bytes that ends within its page. -/
theorem piece_written (h : Space L s.freelist s.mem d) (hlen : src.length < 4294967296)
    (he : pageOf s.mem d (va / 4096) = some e) (hu : User e) (hle : k ≤ src.length)
    (hfit : va % 4096 + k ≤ 4096)
    (hs : s₁ = ⟨Function.update s.mem (frame e)
      (writeBytes (s.mem (frame e)) (va % 4096) (src.take k)), s.freelist⟩) :
    Space L s₁.freelist s₁.mem d ∧
    (∀ r s', Ended d (addr va k) (src.drop k) s₁ r s' → Ended d va src s r s') ∧
    (NoHole s.mem d va src.length ↔ NoHole s₁.mem d (addr va k) (src.drop k).length) := by
  have htake : (src.take k).length = k := List.length_take_of_le hle
  have hdrop : (src.drop k).length = src.length - k := List.length_drop
  have hparts := List.take_append_drop k src
  have hfree : s₁.freelist = s.freelist := by rw [hs]
  have hmem := congrArg Kernel.mem hs
  obtain ⟨hw, htouched, ha⟩ := chunk_written h he hu (htake.symm ▸ hfit) hfree hmem
  refine ⟨hfree.symm ▸ htouched.space h, ?_, ?_⟩
  · intro r s' hrest
    rw [← hparts]
    refine ended_after h (by omega) hw htouched ha ?_
    rwa [htake]
  · rw [hdrop, noHole_split (htake ▸ ha), NoHole, NoHole]
    simp only [Accessible, htouched.pageOf_eq h, htouched.tableOf_eq h]

/-- The loop comes to an end where there is no hole, and reads through a null pointer else. -/
theorem copyoutLoop_spec (h : Space L s.freelist s.mem d) (hva : va < 4294967296)
    (hn : src.length ≤ n) (hlen : src.length < 4294967296) :
    (NoHole s.mem d va src.length →
      ∃ r s', copyoutLoop d n va src s = .ok (r, s') ∧ Ended d va src s r s') ∧
    (¬NoHole s.mem d va src.length → copyoutLoop d n va src s = .error .nullPointer) := by
  induction n generalizing va src s with
  | zero =>
    obtain rfl := List.eq_nil_of_length_eq_zero (Nat.le_zero.mp hn)
    rw [copyoutLoop_nil]
    exact ⟨fun _ => ⟨0, s, rfl, .nil s⟩, fun hhole => absurd (noHole_nil _ _ _) hhole⟩
  | succ n ih =>
    by_cases hne : src = []
    case pos =>
      subst hne
      rw [copyoutLoop_nil]
      exact ⟨fun _ => ⟨0, s, rfl, .nil s⟩, fun hhole => absurd (noHole_nil _ _ _) hhole⟩
    case neg =>
      have hpos := List.length_pos_of_ne_nil hne
      cases ht : tableOf s.mem d (va / 4096 / 1024) with
      | none =>
        rw [step_hole hne hva ht]
        refine ⟨fun hno => ?_, fun _ => rfl⟩
        have hsome := hno 0 hpos fun j hj => absurd hj (Nat.not_lt_zero j)
        rw [addr_zero hva, ht] at hsome
        cases hsome
      | some t =>
        have hsome : (tableOf s.mem d (va / 4096 / 1024)).isSome := by
          rw [ht]
          rfl
        by_cases hacc : Accessible s.mem d va
        case neg =>
          rw [step_denied hne hva hsome hacc]
          exact ⟨fun _ => ⟨-1, s, rfl, .denied hva hpos hacc⟩,
            fun hhole => absurd (noHole_denied hva hsome hacc) hhole⟩
        case pos =>
          obtain ⟨e, he, hu⟩ := hacc
          rw [step_page hne hva he hu]
          have hcases : min (4096 - va % 4096) src.length = src.length ∨
              va % 4096 + min (4096 - va % 4096) src.length = 4096 := by omega
          have hle := Nat.min_le_right (4096 - va % 4096) src.length
          have hfit : va % 4096 + min (4096 - va % 4096) src.length ≤ 4096 := by omega
          have hchunk : 0 < min (4096 - va % 4096) src.length := by omega
          generalize min (4096 - va % 4096) src.length = len at *
          obtain ⟨hspace, hafter, hholes⟩ := piece_written h hlen he hu hle hfit rfl
          rw [hholes]
          obtain hall | hnext := hcases
          case inl =>
            have hnil : src.drop len = [] := List.drop_eq_nil_of_le (Nat.le_of_eq hall.symm)
            rw [hnil] at hafter ⊢
            rw [copyoutLoop_nil]
            exact ⟨fun _ => ⟨0, _, rfl, hafter _ _ (.nil _)⟩,
              fun hhole => absurd (noHole_nil _ _ _) hhole⟩
          case inr =>
            have hgo : (4096 * (va / 4096) + 4096) % 4294967296 = addr va len := by
              simp only [addr]
              omega
            have hbelow : addr va len < 4294967296 := Nat.mod_lt _ (by decide)
            have hdrop : (src.drop len).length = src.length - len := List.length_drop
            have hshort : (src.drop len).length ≤ n := by omega
            rw [hgo]
            obtain ⟨hend, hfault⟩ := ih hspace hbelow hshort (by omega)
            refine ⟨fun hno => ?_, hfault⟩
            obtain ⟨r, s', hrun, hrest⟩ := hend hno
            exact ⟨r, s', hrun, hafter r s' hrest⟩

theorem copyout_spec (h : Space L s.freelist s.mem d) (hva : va < 4294967296)
    (hlen : src.length < 4294967296) :
    (NoHole s.mem d va src.length →
      ∃ r s', copyout d va src s = .ok (r, s') ∧ Ended d va src s r s') ∧
    (¬NoHole s.mem d va src.length → copyout d va src s = .error .nullPointer) :=
  copyoutLoop_spec h hva le_rfl hlen

/-- The copy succeeds just where the user may access all of the range, and fails with -1 else. -/
def CopyLaw (d va : ℕ) (src : List Byte) (s : Kernel) : Prop :=
  ∃ r s', copyout d va src s = .ok (r, s') ∧
    (r = 0 ↔ ∀ k < src.length, Accessible s.mem d (addr va k)) ∧
    (r = 0 → Written d va src s s') ∧ (r ≠ 0 → r = -1)

theorem Ended.law {r : ℤ} (h : Ended d va src s r s') (hrun : copyout d va src s = .ok (r, s')) :
    CopyLaw d va src s := by
  obtain ⟨hr, hall, hw⟩ | ⟨hr, k, hk, hno⟩ := h.result
  · exact ⟨r, s', hrun, ⟨fun _ => hall, fun _ => hr⟩, fun _ => hw, fun hne => absurd hr hne⟩
  · have hne : r ≠ 0 := by
      rw [hr]
      decide
    exact ⟨r, s', hrun, ⟨fun h0 => absurd h0 hne, fun hall => absurd (hall k hk) hno⟩,
      fun h0 => absurd h0 hne, fun _ => hr⟩

theorem copyLaw_noHole (h : Space L s.freelist s.mem d) (hva : va < 4294967296)
    (hlen : src.length < 4294967296) (hlaw : CopyLaw d va src s) :
    NoHole s.mem d va src.length := by
  by_contra hhole
  obtain ⟨r, s', hrun, -⟩ := hlaw
  rw [(copyout_spec h hva hlen).2 hhole] at hrun
  cases hrun

theorem copyout_iff (L : Layout) (d va : ℕ) (src : List Byte) (s : Kernel)
    (h : Space L s.freelist s.mem d) (hva : va < 4294967296) (hlen : src.length < 4294967296) :
    CopyLaw d va src s ↔ NoHole s.mem d va src.length := by
  constructor
  case mp => exact copyLaw_noHole h hva hlen
  case mpr =>
    intro hno
    obtain ⟨r, s', hrun, hended⟩ := (copyout_spec h hva hlen).1 hno
    exact hended.law hrun

theorem copyout_one_page : CopyLaw 300 0 [1, 2, 3] ⟨onePage, samplePool⟩ := by
  refine (copyout_iff sampleLayout 300 0 [1, 2, 3] ⟨onePage, samplePool⟩ onePage_space (by decide)
    (by decide)).mpr ?_
  intro k hk _
  have hpage : addr 0 k / 4096 / 1024 = 0 / 1024 := by
    have hk' : k < 3 := hk
    simp only [addr]
    omega
  exact hpage ▸ Option.isSome_of_eq_some onePage_table

/-- The second four megabytes have no table, and a copy to them reads through a null pointer. -/
theorem copyout_hole_faults : ¬∀ (L : Layout) (d va : ℕ) (src : List Byte) (s : Kernel),
    Space L s.freelist s.mem d → va < 4294967296 → src.length < 4294967296 →
    CopyLaw d va src s := by
  intro hall
  have hlaw := hall sampleLayout 300 4194304 [1] sampleKernel sample_space (by decide) (by decide)
  have hsome := copyLaw_noHole sample_space (by decide) (by decide) hlaw 0 Nat.one_pos
    fun j hj => absurd hj (Nat.not_lt_zero j)
  have hnone : tableOf sampleKernel.mem 300 (addr 4194304 0 / 4096 / 1024) = none :=
    tableOf_zero rfl _
  rw [hnone] at hsome
  cases hsome

end CopyOut
