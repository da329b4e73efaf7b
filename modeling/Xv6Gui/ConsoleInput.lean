import Xv6Gui.Console

/-!
# Characters through the console

The read, write and edit indices stay in this order around the ring, however often they have
wrapped. Typing and erasing happen behind the write index and reading before it, so the
readers get what was committed, in order and once.
-/
namespace ConsoleInput

open Console RingQueue

/-- `w - r <= e - r <= INPUT_BUF`, as unsigned differences. -/
structure Ordered (i : Input) : Prop where
  written : (i.w - i.r).toNat ≤ (i.e - i.r).toNat
  edited : (i.e - i.r).toNat ≤ inputBuf

/-- What a character may do: only behind the write index, which moves to the right. -/
structure Edits (i j : Input) : Prop where
  ordered : Ordered j
  r : j.r = i.r
  grows : (i.w - i.r).toNat ≤ (j.w - i.r).toNat
  kept : segment j.buf i.r.toNat (i.w - i.r).toNat = i.ready

/-- An erasing key moves the edit index back, at most to the write index. -/
structure Erases (i j : Input) : Prop where
  same : j = { i with e := j.e }
  above : (i.w - i.r).toNat ≤ (j.e - i.r).toNat
  below : (j.e - i.r).toNat ≤ (i.e - i.r).toNat

section Indices

variable {i j : Input}

/-- The size of the ring divides the range of the indices. -/
theorem slot_add (r x : BitVec 32) : x.toNat % inputBuf = (r.toNat + (x - r).toNat) % inputBuf := by
  have h : x.toNat = (r.toNat + (x - r).toNat) % 4294967296 := by bv_omega
  rw [h, Nat.mod_mod_of_dvd _ (by decide)]

theorem cell_add (r x : BitVec 32) :
    cell inputBuf x.toNat = cell inputBuf (r.toNat + (x - r).toNat) :=
  Fin.ext (slot_add r x)

theorem Ordered.edits (h : Ordered i) : Edits i i := ⟨h, rfl, Nat.le_refl _, rfl⟩

theorem Edits.ready (h : Edits i j) :
    j.ready = i.ready ++ segment j.buf i.w.toNat (j.w - i.w).toNat := by
  have hsum : (j.w - i.r).toNat = (i.w - i.r).toNat + (j.w - i.w).toNat := by
    have := h.grows
    bv_omega
  rw [Input.ready, h.r, hsum, segment_append, h.kept, segment_mod j.buf (slot_add i.r i.w)]

theorem Edits.commit (h : Edits i j) : Edits i j.commit where
  ordered := ⟨Nat.le_refl _, h.ordered.edited⟩
  r := h.r
  grows := by
    have hw := h.ordered.written
    rw [h.r] at hw
    exact h.grows.trans hw
  kept := h.kept

theorem Ordered.store (h : Ordered i) (hroom : (i.e - i.r).toNat < inputBuf) (c : ℕ) :
    Edits i (i.store c) where
  ordered := by
    have hw := h.written
    constructor
    · simp only [Input.store]
      simp only [inputBuf] at hroom
      bv_omega
    · simp only [Input.store]
      simp only [inputBuf] at hroom ⊢
      bv_omega
  r := rfl
  grows := Nat.le_refl _
  kept := by
    simp only [Input.store, Input.ready]
    rw [cell_add i.r i.e]
    exact segment_update (Nat.add_le_add_left h.written _) (Nat.add_lt_add_left hroom _) _

theorem Erases.refl (h : Ordered i) : Erases i i := ⟨rfl, h.written, Nat.le_refl _⟩

theorem erases_pred (h : Ordered i) (he : i.e ≠ i.w) : Erases i { i with e := i.e - 1 } where
  same := rfl
  above := by
    have := h.written
    bv_omega
  below := by
    have := h.written
    bv_omega

theorem Erases.ordered (h : Erases i j) (ho : Ordered i) : Ordered j := by
  rw [h.same]
  exact ⟨h.above, h.below.trans ho.edited⟩

theorem Erases.trans {k : Input} (h : Erases i j) (h' : Erases j k) : Erases i k := by
  obtain ⟨hsame, habove, hbelow⟩ := h
  obtain ⟨hsame', habove', hbelow'⟩ := h'
  rw [hsame] at hsame' habove' hbelow'
  exact ⟨hsame', habove', hbelow'.trans hbelow⟩

theorem Erases.edits (h : Erases i j) (ho : Ordered i) : Edits i j where
  ordered := h.ordered ho
  r := by rw [h.same]
  grows := by rw [h.same]
  kept := by
    rw [h.same]
    rfl

theorem killLine_erases (h : Ordered i) (n : ℕ) : Erases i (killLine i n) := by
  induction n generalizing i with
  | zero => exact .refl h
  | succ n ih =>
    simp only [killLine]
    split
    · next hc =>
      have he := erases_pred h hc.1
      exact he.trans (ih (he.ordered h))
    · exact .refl h

/-- The loop of the kill key ends by its own condition. -/
theorem killLine_stops {n : ℕ} (hn : (i.e - i.w).toNat ≤ n) :
    (killLine i n).e = (killLine i n).w ∨
      ((killLine i n).at ((killLine i n).e - 1)).toNat = newline := by
  induction n generalizing i with
  | zero =>
    left
    simp only [killLine]
    bv_omega
  | succ n ih =>
    simp only [killLine]
    split
    · next hc =>
      apply ih
      have := hc.1
      simp only
      bv_omega
    · next hc =>
      by_cases he : i.e = i.w
      · exact .inl he
      · exact .inr (by_contra fun hne => hc ⟨he, hne⟩)

/-- The keys that erase. -/
def Erasing (c : ℕ) : Prop := c = C 'U' ∨ c = C 'H' ∨ c = delete

theorem handle_erases (h : Ordered i) {c : ℕ} (hc : Erasing c) : Erases i (handle i c) := by
  have hback : Erases i (if i.e ≠ i.w then { i with e := i.e - 1 } else i) := by
    split
    · next he => exact erases_pred h he
    · exact .refl h
  obtain rfl | rfl | rfl := hc
  · exact killLine_erases h _
  · exact hback
  · exact hback

theorem handle_edits (h : Ordered i) (c : ℕ) : Edits i (handle i c) := by
  by_cases hc : Erasing c
  · exact (handle_erases h hc).edits h
  · simp only [Erasing, not_or] at hc
    simp only [handle, if_neg hc.1, hc.2.1, hc.2.2, or_self, if_false]
    split
    · exact h.edits
    · split
      · next hroom =>
        generalize (if c = carriageReturn then newline else c) = d
        have hs := h.store hroom.2 d
        split
        · exact hs.commit
        · exact hs
      · exact h.edits

end Indices

section Reading

variable {i : Input} {killed : Bool} {target n : ℕ}

/-- What a section of `consoleread` does: it takes a prefix of what is ready, and stores it
but for a ^D, which ends a call that has stored nothing. -/
structure ReadSpec (target n : ℕ) (i : Input) (s : ReadSection) : Prop where
  ordered : Ordered s.input
  account : s.took ++ s.input.ready = i.ready
  stored : s.stored = s.took.filter fun c => c.toNat ≠ C 'D'
  left : s.stored.length + s.n = n
  result : ∀ v, s.outcome = .returns v → v = -1 ∨ v = target - (s.n : ℤ)
  eof : s.took.countP (fun c => c.toNat = C 'D') = 0 ∨
    s.took.countP (fun c => c.toNat = C 'D') = 1 ∧ target ≤ s.n ∧
      s.outcome = .returns (target - (s.n : ℤ))

theorem ready_cons (h : i.r ≠ i.w) :
    i.ready = i.at i.r :: { i with r := i.r + 1 : Input }.ready := by
  have hlen : (i.w - i.r).toNat = (i.w - (i.r + 1)).toNat + 1 := by bv_omega
  have hmod : (i.r.toNat + 1) % inputBuf = (i.r + 1).toNat % inputBuf := by
    have h : (i.r + 1).toNat = (i.r.toNat + 1) % 4294967296 := by bv_omega
    rw [h, Nat.mod_mod_of_dvd _ (by decide)]
  simp only [Input.ready]
  rw [hlen, segment_cons, segment_mod i.buf hmod]
  rfl

theorem Ordered.advance (h : Ordered i) (hr : i.r ≠ i.w) :
    Ordered { i with r := i.r + 1 } := by
  have hw := h.written
  have he := h.edited
  simp only [inputBuf] at he
  constructor
  · simp only
    bv_omega
  · simp only [inputBuf]
    bv_omega

theorem consoleread_spec (killed : Bool) (target : ℕ) (h : Ordered i) (n : ℕ) :
    ReadSpec target n i (consoleread killed target i n) := by
  induction n generalizing i with
  | zero =>
    refine ⟨h, rfl, rfl, rfl, ?_, .inl rfl⟩
    rintro v ⟨⟩
    exact .inr (by simp [consoleread])
  | succ n ih =>
    simp only [consoleread]
    split
    · split
      · refine ⟨h, rfl, rfl, Nat.zero_add _, ?_, .inl rfl⟩
        rintro v ⟨⟩
        exact .inl rfl
      · exact ⟨h, rfl, rfl, Nat.zero_add _, nofun, .inl rfl⟩
    · next hr =>
      split
      · next hd =>
        split
        · have hback : { i with r := i.r + 1 - 1 : Input } = i := by
            rw [BitVec.add_sub_cancel]
          simp only [hback]
          refine ⟨h, rfl, rfl, Nat.zero_add _, ?_, .inl rfl⟩
          rintro v ⟨⟩
          exact .inr (by simp)
        · next hn =>
          refine ⟨h.advance hr, (ready_cons hr).symm, ?_, Nat.zero_add _, ?_, .inr ⟨?_, ?_, ?_⟩⟩
          · simp [hd]
          · rintro v ⟨⟩
            exact .inr (by simp)
          · simp [hd]
          · exact Nat.le_of_not_lt hn
          · simp
      · next hd =>
        split
        · refine ⟨h.advance hr, (ready_cons hr).symm, ?_, Nat.add_comm _ _, ?_, .inl ?_⟩
          · simp [hd]
          · rintro v ⟨⟩
            exact .inr rfl
          · simp [hd]
        · have hs := ih (h.advance hr)
          refine ⟨hs.ordered, ?_, ?_, ?_, hs.result, ?_⟩
          · rw [List.cons_append, hs.account, ready_cons hr]
          · rw [hs.stored, List.filter_cons_of_pos (by simpa using hd)]
          · have := hs.left
            simp only [List.length_cons]
            omega
          · simpa [hd] using hs.eof

end Reading

variable {P : Type} [DecidableEq P] {s : System P} {p q : P}

/-- The calls of `p` that have returned nothing and no error. -/
def emptyReturns (s : System P) (p : P) : ℕ :=
  (returnsOf s p).countP fun t => t.result = 0 ∧ t.dst = []

structure Invariant (s : System P) : Prop where
  ordered : Ordered s.input
  inOrder : s.taken.map Prod.snd ++ s.input.ready = s.committed
  received : ∀ p, received s p = (takenBy s p).filter fun c => c.toNat ≠ C 'D'
  results : ∀ t ∈ s.returned, t.result = -1 ∨ t.result = t.dst.length
  eof : ∀ p, (takenBy s p).countP (fun c => c.toNat = C 'D') ≤ emptyReturns s p
  calls : ∀ p c, (s.proc p).call = some c → c.dst.length + c.n = c.target

theorem start_invariant : Invariant (start P) where
  ordered := ⟨Nat.le_refl _, by simp [start]⟩
  inOrder := by simp [start, Input.ready]
  received _ := rfl
  results := nofun
  eof _ := Nat.le_refl _
  calls := nofun

/-- Waking and killing change neither what the calls hold nor the characters. -/
theorem Invariant.of_calls {t : System P} (h : Invariant s) (hi : t.input = s.input)
    (hc : t.committed = s.committed) (ht : t.taken = s.taken) (hr : t.returned = s.returned)
    (hcall : ∀ p, (t.proc p).call = (s.proc p).call) : Invariant t where
  ordered := hi ▸ h.ordered
  inOrder := by rw [hi, hc, ht, h.inOrder]
  received p := by
    have := h.received p
    simpa only [Console.received, returnsOf, takenBy, ht, hr, hcall] using this
  results := hr ▸ h.results
  eof p := by
    have := h.eof p
    simpa only [emptyReturns, returnsOf, takenBy, ht, hr] using this
  calls p c hp := h.calls p c (hcall p ▸ hp)

theorem typed_invariant (h : Invariant s) (c : ℕ) : Invariant (typed s c) := by
  have he := handle_edits h.ordered c
  have hmid : Invariant { s with
      input := handle s.input c
      committed := s.committed ++ segment (handle s.input c).buf s.input.w.toNat
        ((handle s.input c).w - s.input.w).toNat } :=
    { ordered := he.ordered
      inOrder := by rw [he.ready, ← List.append_assoc, h.inOrder]
      received := h.received
      results := h.results
      eof := h.eof
      calls := h.calls }
  simp only [typed]
  split
  · exact hmid
  · exact hmid.of_calls rfl rfl rfl rfl fun _ => rfl

theorem consoleintr_invariant (h : Invariant s) (cs : List ℕ) : Invariant (consoleintr s cs) := by
  induction cs generalizing s with
  | nil => exact h
  | cons c cs ih => exact ih (typed_invariant h c)

theorem kill_invariant (h : Invariant s) (p : P) : Invariant (kill s p) := by
  refine h.of_calls rfl rfl rfl rfl ?_
  intro q
  by_cases hq : q = p
  · subst hq
    simp only [kill, Function.update_self]
  · simp only [kill, Function.update_of_ne hq]

/-- The characters that a section of `p` takes are characters of `p`. -/
theorem takenBy_append (taken : List (P × UInt8)) (p q : P) (took : List UInt8) :
    ((taken ++ took.map fun b => (p, b)).filter fun t => t.1 = q).map Prod.snd =
      (taken.filter fun t => t.1 = q).map Prod.snd ++ if p = q then took else [] := by
  rw [List.filter_append, List.map_append, List.filter_map, List.map_map]
  by_cases h : p = q
  · simp [h, Function.comp_def]
  · simp [h, Function.comp_def]

theorem returnsOf_append (returned : List (Return P)) (p q : P) (v : ℤ) (dst : List UInt8) :
    (returned ++ [(⟨p, v, dst⟩ : Return P)]).filter (fun t => t.proc = q) =
      returned.filter (fun t => t.proc = q) ++ if p = q then [⟨p, v, dst⟩] else [] := by
  by_cases h : p = q
  · simp [h]
  · simp [h]

section Sections

variable {c : Call}

/-- What the section of `p` is resumed with is what its call has stored so far. -/
structure Resumes (s : System P) (p : P) (c : Call) : Prop where
  dst : ((s.proc p).call.map Call.dst).getD [] = c.dst
  asked : c.dst.length + c.n = c.target

theorem received_returns (h : Invariant s) (hc : Resumes s p c) {r : ReadSection} {v : ℤ}
    (hr : r.stored = r.took.filter fun b => b.toNat ≠ C 'D') (q : P) :
    let t := setProc { s with
      input := r.input
      taken := s.taken ++ r.took.map fun b => (p, b)
      returned := s.returned ++ [⟨p, v, c.dst ++ r.stored⟩] } p none false
    received t q = (takenBy t q).filter fun b => b.toNat ≠ C 'D' := by
  have hq := h.received q
  simp only [received, returnsOf, takenBy, setProc] at hq ⊢
  rw [takenBy_append, returnsOf_append, List.filter_append, ← hq]
  by_cases hpq : p = q
  · subst hpq
    simp only [if_true, Function.update_self, List.map_append, List.map_cons, List.map_nil,
      List.flatten_append, List.flatten_cons, List.flatten_nil, List.append_nil, Option.map_none,
      Option.getD_none, hc.dst, hr, List.append_assoc]
  · simp only [if_neg hpq, Function.update_of_ne (Ne.symm hpq), List.append_nil, List.filter_nil]

theorem received_sleeps (h : Invariant s) (hc : Resumes s p c) {r : ReadSection}
    (hr : r.stored = r.took.filter fun b => b.toNat ≠ C 'D') (q : P) :
    let t := setProc { s with
      input := r.input
      taken := s.taken ++ r.took.map fun b => (p, b) } p
        (some ⟨r.n, c.target, c.dst ++ r.stored⟩) true
    received t q = (takenBy t q).filter fun b => b.toNat ≠ C 'D' := by
  have hq := h.received q
  simp only [received, returnsOf, takenBy, setProc] at hq ⊢
  rw [takenBy_append, List.filter_append, ← hq]
  by_cases hpq : p = q
  · subst hpq
    simp only [if_true, Function.update_self, Option.map_some, Option.getD_some, hc.dst, hr,
      List.append_assoc]
  · simp only [if_neg hpq, Function.update_of_ne (Ne.symm hpq), List.append_nil, List.filter_nil]

theorem emptyReturns_append (s : System P) (p q : P) (v : ℤ) (dst : List UInt8) :
    emptyReturns { s with returned := s.returned ++ [⟨p, v, dst⟩] } q =
      emptyReturns s q + if p = q ∧ v = 0 ∧ dst = [] then 1 else 0 := by
  simp only [emptyReturns, returnsOf, returnsOf_append, List.countP_append]
  by_cases h : p = q
  · simp [h, List.countP_cons]
  · simp [h]

/-- A ^D that a section takes is answered where the section returns nothing. -/
theorem eof_taken (h : Invariant s) {took : List UInt8} {k : ℕ}
    (hk : p = q → took.countP (fun b => b.toNat = C 'D') ≤ k) :
    (((s.taken ++ took.map fun b => (p, b)).filter fun t => t.1 = q).map Prod.snd).countP
      (fun b => b.toNat = C 'D') ≤ emptyReturns s q + k := by
  rw [takenBy_append, List.countP_append]
  refine Nat.add_le_add (h.eof q) ?_
  split
  case isTrue hpq => exact hk hpq
  case isFalse => exact Nat.zero_le _

/-- The call of `p` is set, and those of the others stay. -/
theorem calls_set (h : Invariant s) {call : Option Call}
    (hcall : ∀ d, call = some d → d.dst.length + d.n = d.target) (asleep : Bool) (q : P) (d : Call)
    (hq : (Function.update s.proc p { s.proc p with call := call, asleep := asleep } q).call =
      some d) : d.dst.length + d.n = d.target := by
  by_cases hpq : q = p
  · subst hpq
    rw [Function.update_self] at hq
    exact hcall d hq
  · rw [Function.update_of_ne hpq] at hq
    exact h.calls q d hq

theorem inOrder_taken (h : Invariant s) {r : ReadSection}
    (haccount : r.took ++ r.input.ready = s.input.ready) :
    (s.taken ++ r.took.map fun b => (p, b)).map Prod.snd ++ r.input.ready = s.committed := by
  rw [List.map_append, List.map_map, List.append_assoc, ← h.inOrder, ← haccount]
  simp [Function.comp_def]

theorem returns_invariant (h : Invariant s) (hc : Resumes s p c) {r : ReadSection} {v : ℤ}
    (hr : ReadSpec c.target c.n s.input r) (hv : r.outcome = .returns v) :
    Invariant (setProc { s with
      input := r.input
      taken := s.taken ++ r.took.map fun b => (p, b)
      returned := s.returned ++ [⟨p, v, c.dst ++ r.stored⟩] } p none false) := by
  have hasked := hc.asked
  have hleft := hr.left
  have hlength : (c.dst ++ r.stored).length = c.dst.length + r.stored.length :=
    List.length_append
  refine ⟨hr.ordered, inOrder_taken h hr.account, received_returns h hc hr.stored, ?_, ?_, ?_⟩
  · intro t ht
    rcases List.mem_append.mp ht with ht | ht
    · exact h.results t ht
    · obtain rfl := List.mem_singleton.mp ht
      refine (hr.result v hv).imp_right ?_
      intro hv
      dsimp only
      omega
  · intro q
    change List.countP _ ((List.filter _ (s.taken ++ r.took.map fun b => (p, b))).map Prod.snd) ≤
      emptyReturns { s with returned := s.returned ++ [⟨p, v, c.dst ++ r.stored⟩] } q
    rw [emptyReturns_append]
    refine eof_taken h ?_
    intro hpq
    rcases hr.eof with hz | ⟨hone, htarget, hout⟩
    · rw [hz]
      exact Nat.zero_le _
    · have hv0 : v = 0 := by
        rw [hout] at hv
        cases hv
        omega
      have hnil : c.dst ++ r.stored = [] := List.eq_nil_of_length_eq_zero (by omega)
      rw [if_pos ⟨hpq, hv0, hnil⟩]
      exact hone.le
  · exact calls_set h (fun d hd => by cases hd) false

theorem sleeps_invariant (h : Invariant s) (hc : Resumes s p c) {r : ReadSection}
    (hr : ReadSpec c.target c.n s.input r) (hv : r.outcome = .sleeps) :
    Invariant (setProc { s with
      input := r.input
      taken := s.taken ++ r.took.map fun b => (p, b) } p
        (some ⟨r.n, c.target, c.dst ++ r.stored⟩) true) := by
  have hasked := hc.asked
  have hleft := hr.left
  refine ⟨hr.ordered, inOrder_taken h hr.account, received_sleeps h hc hr.stored, h.results, ?_, ?_⟩
  · intro q
    refine eof_taken (q := q) (k := 0) h ?_
    intro _
    rcases hr.eof with hz | ⟨-, -, hout⟩
    · exact hz.le
    · rw [hv] at hout
      cases hout
  · refine calls_set h ?_ true
    rintro d hd
    obtain rfl := Option.some.inj hd
    dsimp only
    rw [List.length_append]
    omega

theorem readSection_invariant (h : Invariant s) (hc : Resumes s p c) :
    Invariant (readSection s p c) := by
  have hr := consoleread_spec (s.proc p).killed c.target h.ordered c.n
  simp only [readSection]
  split
  · next v hv => exact returns_invariant h hc hr hv
  · next hv => exact sleeps_invariant h hc hr hv

end Sections

theorem step_invariant (h : Invariant s) (e : Event P) : Invariant (step s e) := by
  cases e with
  | intr cs => exact consoleintr_invariant h cs
  | read p n =>
    simp only [step]
    split
    · next hn => exact readSection_invariant h ⟨by rw [hn]; rfl, Nat.zero_add _⟩
    · exact h
  | resume p =>
    simp only [step]
    split
    · next c hc _ => exact readSection_invariant h ⟨by rw [hc]; rfl, h.calls p c hc⟩
    · exact h
  | kill p => exact kill_invariant h p

end ConsoleInput
