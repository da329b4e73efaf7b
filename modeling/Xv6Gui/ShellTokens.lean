import Xv6Gui.ShellParser

/-!
# The tokens of a line

A line is a list of tokens with whitespace around them. gettoken takes the first token off and
leaves the pointer in front of the next, and peek moves the pointer to the first token.
-/
namespace ShellTokens

open WordMemory ShellParser

/-- A nonempty string without zero bytes, whitespace and symbols. -/
structure Name where
  bytes : List Byte
  nonempty : bytes ≠ []
  plain : ∀ b ∈ bytes, b ≠ 0 ∧ b ∉ whitespace ∧ b ∉ symbols

inductive Token
  | symbol (b : Byte)
  | word (w : Name)

def Blank (ws : List Byte) : Prop := ∀ b ∈ ws, b ∈ whitespace

instance (ws : List Byte) : Decidable (Blank ws) := inferInstanceAs (Decidable (∀ b ∈ ws, _))

def startsWord : List Token → Bool
  | .word _ :: _ => true
  | _ => false

/-- The tokens with whitespace behind each, at least one byte of it between two words. -/
inductive Spaced : List Token → List Byte → Prop
  | nil : Spaced [] []
  | symbol {b toks t} (ws : List Byte) : b ∈ symbols → Blank ws → Spaced toks t →
      Spaced (.symbol b :: toks) (b :: (ws ++ t))
  | word {w toks t} (ws : List Byte) : Blank ws → (startsWord toks → ws ≠ []) → Spaced toks t →
      Spaced (.word w :: toks) (w.bytes ++ (ws ++ t))

/-- A line with these tokens. -/
def Rendering (toks : List Token) (line : List Byte) : Prop :=
  ∃ ws t, line = ws ++ t ∧ Blank ws ∧ Spaced toks t

/-- The line from `s` on, up to a zero byte at `es`. -/
def Holds (mem : Memory) (es : ℕ) : ℕ → List Byte → Prop
  | s, [] => s = es ∧ mem es = 0
  | s, b :: t => mem s = b ∧ Holds mem es (s + 1) t

/-- The tokens from `s` on. -/
def Ready (mem : Memory) (es s : ℕ) (toks : List Token) : Prop :=
  ∃ line, Rendering toks line ∧ Holds mem es s line

/-- The slice is the word, and is not followed by a byte of a word. -/
structure Spells (mem : Memory) (a : Slice) (w : Name) : Prop where
  bytes : ∀ i (h : i < w.bytes.length), mem (a.q + i) = w.bytes[i]
  length : a.eq = a.q + w.bytes.length
  stop : mem a.eq = 0 ∨ mem a.eq ∈ whitespace ∨ mem a.eq ∈ symbols

section Lists

variable {toks : List Token} {t ws : List Byte} {w : Name} {b : Byte}

theorem strchr_iff {s : List Byte} : strchr s b = true ↔ b ∈ s := List.contains_iff_mem

theorem strchr_eq_false {s : List Byte} (h : b ∉ s) : strchr s b = false :=
  Bool.eq_false_iff.mpr fun hfound => h (strchr_iff.mp hfound)

theorem redirects_symbols : ∀ b ∈ ['<', '>'].map byte, b ∈ symbols := by simp [symbols]

theorem ends_symbols : ∀ b ∈ ['|', ')', '&', ';'].map byte, b ∈ symbols := by simp [symbols]

theorem open_symbol : ∀ b ∈ [byte '('], b ∈ symbols := by simp [symbols]

theorem close_symbol : ∀ b ∈ [byte ')'], b ∈ symbols := by simp [symbols]

theorem bar_symbol : ∀ b ∈ [byte '|'], b ∈ symbols := by simp [symbols]

theorem amp_symbol : ∀ b ∈ [byte '&'], b ∈ symbols := by simp [symbols]

theorem semi_symbol : ∀ b ∈ [byte ';'], b ∈ symbols := by simp [symbols]

theorem greater_symbol : byte '>' ∈ symbols := strchr_iff.mp rfl

theorem ne_zero_of_symbol (h : b ∈ symbols) : b ≠ 0 := by
  rintro rfl
  cases strchr_iff.mpr h

theorem not_space_of_symbol (h : b ∈ symbols) : b ∉ whitespace := by
  have hall : symbols.all (fun c => !strchr whitespace c) = true := rfl
  intro hb
  have hfalse := List.all_eq_true.mp hall b h
  rw [strchr_iff.mpr hb] at hfalse
  cases hfalse

/-- Behind a word there is whitespace, a symbol or the end. -/
theorem stop_of_spaced (h : Spaced toks t) (hws : Blank ws) (hsep : startsWord toks → ws ≠ [])
    (hb : b ∈ (ws ++ t).head?) : b ∈ whitespace ∨ b ∈ symbols := by
  cases ws with
  | cons c ws =>
    obtain rfl := Option.some.inj hb
    exact .inl (hws c List.mem_cons_self)
  | nil =>
    cases h with
    | nil => cases hb
    | symbol ws' hsymbol _ _ =>
      obtain rfl := Option.some.inj hb
      exact .inr hsymbol
    | word => exact absurd rfl (hsep rfl)

theorem Spaced.head (h : Spaced toks t) (hb : b ∈ t.head?) : b ≠ 0 ∧ b ∉ whitespace := by
  cases h with
  | nil => cases hb
  | symbol ws hsymbol _ _ =>
    obtain rfl := Option.some.inj hb
    exact ⟨ne_zero_of_symbol hsymbol, not_space_of_symbol hsymbol⟩
  | @word w toks t ws _ _ _ =>
    obtain ⟨c, u, hcu⟩ := List.exists_cons_of_ne_nil w.nonempty
    rw [hcu] at hb
    obtain rfl := Option.some.inj hb
    obtain ⟨hzero, hspace, -⟩ := w.plain c (by rw [hcu]; exact List.mem_cons_self)
    exact ⟨hzero, hspace⟩

/-- In front of a word `>` stands on its own. -/
theorem second_ne (h : Spaced toks t) (hword : startsWord toks) (hws : Blank ws) :
    (ws ++ t).head?.getD 0 ≠ byte '>' := by
  have hspaces : ∀ c ∈ whitespace, c ≠ byte '>' := by
    rintro c hc rfl
    exact not_space_of_symbol greater_symbol hc
  cases ws with
  | cons c ws => exact hspaces c (hws c List.mem_cons_self)
  | nil =>
    cases h with
    | nil => cases hword
    | symbol => cases hword
    | @word w toks t ws _ _ _ =>
      obtain ⟨c, u, hcu⟩ := List.exists_cons_of_ne_nil w.nonempty
      have hplain := (w.plain c (by rw [hcu]; exact List.mem_cons_self)).2.2
      rw [hcu]
      rintro (rfl : c = byte '>')
      exact hplain greater_symbol

theorem Spaced.length_le (h : Spaced toks t) : toks.length ≤ t.length := by
  induction h with
  | nil => exact le_refl _
  | symbol ws _ _ _ ih =>
    rw [List.length_cons, List.length_cons, List.length_append]
    omega
  | @word w toks t ws _ _ _ ih =>
    have hpos := List.length_pos_of_ne_nil w.nonempty
    rw [List.length_cons, List.length_append, List.length_append]
    omega

theorem Spaced.word_le (h : Spaced toks t) (hw : .word w ∈ toks) : w.bytes.length ≤ t.length := by
  induction h with
  | nil => exact absurd hw List.not_mem_nil
  | symbol ws _ _ _ ih =>
    rcases List.mem_cons.mp hw with hsymbol | hw
    · cases hsymbol
    · have hle := ih hw
      rw [List.length_cons, List.length_append]
      omega
  | @word v toks t ws _ _ _ ih =>
    rw [List.length_append, List.length_append]
    rcases List.mem_cons.mp hw with hv | hw
    · obtain rfl := Token.word.inj hv
      omega
    · have hle := ih hw
      omega

end Lists

section Pointers

variable {mem : Memory} {es s n : ℕ} {toks : List Token} {t u ws : List Byte} {w : Name} {b : Byte}
  {p : Byte → Bool}

theorem Holds.length (h : Holds mem es s t) : s + t.length = es := by
  induction t generalizing s with
  | nil => exact h.1
  | cons b t ih =>
    have htail := ih h.2
    rw [List.length_cons]
    omega

theorem Holds.stop (h : Holds mem es s t) : mem es = 0 := by
  induction t generalizing s with
  | nil => exact h.2
  | cons b t ih => exact ih h.2

theorem holds_append :
    Holds mem es s (u ++ t) ↔
      (∀ i (h : i < u.length), mem (s + i) = u[i]) ∧ Holds mem es (s + u.length) t := by
  induction u generalizing s with
  | nil =>
    constructor
    · intro h
      exact ⟨fun i hi => absurd hi (Nat.not_lt_zero i), h⟩
    · exact And.right
  | cons b u ih =>
    have hplace : s + (b :: u).length = s + 1 + u.length := by
      rw [List.length_cons]
      omega
    rw [List.cons_append, Holds, ih, hplace]
    constructor
    · rintro ⟨hb, hu, ht⟩
      refine ⟨?_, ht⟩
      intro i hi
      cases i with
      | zero => exact hb
      | succ i =>
        have hnext := hu i (Nat.lt_of_succ_lt_succ hi)
        rwa [Nat.add_assoc, Nat.add_comm 1 i] at hnext
    · rintro ⟨hu, ht⟩
      refine ⟨hu 0 (Nat.succ_pos _), ?_, ht⟩
      intro i hi
      have hnext := hu (i + 1) (Nat.succ_lt_succ hi)
      rwa [Nat.add_assoc, Nat.add_comm 1 i]

/-- A line of nonzero bytes is the string at its first byte. -/
theorem Holds.string (h : Holds mem es s t) (ht : ∀ b ∈ t, b ≠ 0) (hn : t.length < n) :
    cstring mem s n = some t := by
  induction t generalizing s n with
  | nil =>
    obtain ⟨n, rfl⟩ := Nat.exists_eq_add_one.mpr hn
    obtain ⟨rfl, hzero⟩ := h
    exact if_pos hzero
  | cons b t ih =>
    rw [List.length_cons] at hn
    obtain ⟨n, rfl⟩ : ∃ k, n = k + 1 := ⟨n - 1, by omega⟩
    obtain ⟨hb, hrest⟩ := List.forall_mem_cons.mp ht
    obtain ⟨hread, htail⟩ := h
    rw [cstring, if_neg (hread ▸ hb), ih htail hrest (by omega), hread]
    rfl

theorem holds_of_cstring (h : cstring mem s n = some t) : Holds mem (s + t.length) s t := by
  induction n generalizing s t with
  | zero => cases h
  | succ n ih =>
    rw [cstring] at h
    by_cases hend : mem s = 0
    · rw [if_pos hend] at h
      obtain rfl := Option.some.inj h
      exact ⟨rfl, hend⟩
    · rw [if_neg hend] at h
      obtain ⟨u, hu, rfl⟩ := Option.map_eq_some_iff.mp h
      have hplace : s + (mem s :: u).length = s + 1 + u.length := by
        rw [List.length_cons]
        omega
      rw [hplace]
      exact ⟨rfl, ih hu⟩

/-- What the pointer reads when it is not at the end. -/
theorem Holds.head (h : Holds mem es s t) : mem s = t.head?.getD 0 := by
  cases t with
  | nil =>
    obtain ⟨rfl, hzero⟩ := h
    exact hzero
  | cons b t => exact h.1

/-- The loop steps over the bytes of `p` and stops in front of the first other one. -/
theorem skipWhile_eq (h : Holds mem es s (u ++ t)) (hu : ∀ b ∈ u, p b)
    (ht : ∀ b ∈ t.head?, ¬p b) : skipWhile mem p (es - s) s = s + u.length := by
  have hlength := h.length
  rw [List.length_append] at hlength
  obtain ⟨n, hn⟩ : ∃ n, es - s = n := ⟨_, rfl⟩
  rw [hn]
  induction u generalizing s n with
  | nil =>
    cases n with
    | zero => rfl
    | succ n =>
      cases t with
      | nil =>
        change s + (0 + 0) = es at hlength
        omega
      | cons b t => exact if_neg (h.1 ▸ ht b rfl)
  | cons b u ih =>
    obtain ⟨hb, hu⟩ := List.forall_mem_cons.mp hu
    rw [List.length_cons] at hlength ⊢
    cases n with
    | zero => omega
    | succ n =>
      obtain ⟨hhead, htail⟩ := h
      rw [skipWhile, if_pos (hhead ▸ hb), ih htail hu (by omega) n (by omega)]
      omega

theorem skipSpace_eq (h : Holds mem es s (ws ++ t)) (hws : Blank ws)
    (ht : ∀ b ∈ t.head?, b ∉ whitespace) : skipSpace mem es s = s + ws.length := by
  apply skipWhile_eq h
  · intro b hb
    exact strchr_iff.mpr (hws b hb)
  · intro b hb hspace
    exact ht b hb (strchr_iff.mp hspace)

/-- The pointer goes to the first token. -/
theorem Ready.skip (h : Ready mem es s toks) :
    ∃ t, Spaced toks t ∧ Holds mem es (skipSpace mem es s) t := by
  obtain ⟨line, ⟨ws, t, rfl, hws, hspaced⟩, hline⟩ := h
  refine ⟨t, hspaced, ?_⟩
  rw [skipSpace_eq hline hws fun b hb => (hspaced.head hb).2]
  exact (holds_append.mp hline).2

theorem Spaced.ready (h : Spaced toks t) (hws : Blank ws) (ht : Holds mem es s (ws ++ t)) :
    Ready mem es (skipSpace mem es s) toks := by
  rw [skipSpace_eq ht hws fun b hb => (h.head hb).2]
  exact ⟨t, ⟨[], t, rfl, fun b hb => absurd hb List.not_mem_nil, h⟩, (holds_append.mp ht).2⟩

/-- The first token is one of these symbols. -/
def starts (cs : List Byte) : List Token → Bool
  | .symbol b :: _ => strchr cs b
  | _ => false

theorem peek_ready (cs : List Byte) (h : Ready mem es s toks) (hcs : ∀ b ∈ cs, b ∈ symbols) :
    ∃ s', peek mem es s cs = (starts cs toks, s') ∧ Ready mem es s' toks := by
  obtain ⟨t, hspaced, ht⟩ := h.skip
  have hready : Ready mem es (skipSpace mem es s) toks :=
    ⟨t, ⟨[], t, rfl, fun b hb => absurd hb List.not_mem_nil, hspaced⟩, ht⟩
  refine ⟨skipSpace mem es s, Prod.ext ?_ rfl, hready⟩
  have hhead := ht.head
  change (decide (mem _ ≠ 0) && strchr cs (mem _)) = starts cs toks
  rw [hhead]
  cases hspaced with
  | nil => rfl
  | @symbol b toks t ws hsymbol _ _ =>
    have hzero : b ≠ 0 := ne_zero_of_symbol hsymbol
    change (decide (b ≠ 0) && strchr cs b) = strchr cs b
    rw [decide_eq_true hzero, Bool.true_and]
  | @word w toks t ws _ _ _ =>
    obtain ⟨c, u, hcu⟩ := List.exists_cons_of_ne_nil w.nonempty
    have hplain := (w.plain c (by rw [hcu]; exact List.mem_cons_self)).2.2
    rw [hcu]
    change (decide (c ≠ 0) && strchr cs c) = false
    rw [strchr_eq_false fun hmem => hplain (hcs c hmem), Bool.and_false]

/-- At the end of the line the pointer is `es`. -/
theorem peek_end (h : Ready mem es s []) (cs : List Byte) : (peek mem es s cs).2 = es := by
  obtain ⟨t, hspaced, ht⟩ := h.skip
  cases hspaced
  exact ht.1

theorem gettoken_end (h : Ready mem es s []) :
    (gettoken mem es s).ret = 0 ∧ Ready mem es (gettoken mem es s).ps [] := by
  obtain ⟨t, hspaced, ht⟩ := h.skip
  have hzero := ht.head
  have hq : gettoken mem es s =
      ⟨0, ⟨skipSpace mem es s, skipSpace mem es s⟩, skipSpace mem es (skipSpace mem es s)⟩ := by
    cases hspaced
    change mem (skipSpace mem es s) = 0 at hzero
    simp only [gettoken, hzero, if_true]
  rw [hq]
  exact ⟨rfl, hspaced.ready (show Blank [] from fun b hb => absurd hb List.not_mem_nil) ht⟩

/-- A symbol other than `>` is taken off, and so is a `>` in front of a word. -/
theorem gettoken_symbol (h : Ready mem es s (.symbol b :: toks))
    (hb : b = byte '>' → startsWord toks) :
    (gettoken mem es s).ret = b ∧ Ready mem es (gettoken mem es s).ps toks := by
  obtain ⟨t, hspaced, ht⟩ := h.skip
  cases hspaced with
  | @symbol b toks t ws hsymbol hws hspaced =>
    obtain ⟨hread, hnext⟩ := ht
    have hzero : b ≠ 0 := ne_zero_of_symbol hsymbol
    have hq : gettoken mem es s = ⟨b, ⟨skipSpace mem es s, skipSpace mem es s + 1⟩,
        skipSpace mem es (skipSpace mem es s + 1)⟩ := by
      have hsymbols : ∀ c ∈ symbols,
          (['|', '(', ')', ';', '&', '<'].map byte).contains c = true ∨ c = byte '>' := by
        simp [symbols]
      rcases hsymbols b hsymbol with hplain | rfl
      · simp only [gettoken, hread, if_neg hzero, hplain, if_true]
      · have hafter : mem (skipSpace mem es s + 1) ≠ byte '>' :=
          hnext.head ▸ second_ne hspaced (hb rfl) hws
        have hother : (['|', '(', ')', ';', '&', '<'].map byte).contains (byte '>') = false := rfl
        simp only [gettoken, hread, if_neg hzero, hother, Bool.false_eq_true, if_true, if_false,
          if_neg hafter]
    rw [hq]
    exact ⟨rfl, hspaced.ready hws hnext⟩

/-- A word is taken off, and `q` and `eq` are set to its ends. -/
theorem gettoken_word (h : Ready mem es s (.word w :: toks)) :
    (gettoken mem es s).ret = byte 'a' ∧ Spells mem (gettoken mem es s).slice w ∧
      Ready mem es (gettoken mem es s).ps toks := by
  obtain ⟨t, hspaced, ht⟩ := h.skip
  cases hspaced with
  | @word w toks t ws hws hsep hspaced =>
    obtain ⟨hbytes, hnext⟩ := holds_append.mp ht
    have hstop : ∀ b ∈ (ws ++ t).head?, b ∈ whitespace ∨ b ∈ symbols := fun b hb =>
      stop_of_spaced hspaced hws hsep hb
    have hskip : skipWhile mem (fun c => !strchr whitespace c && !strchr symbols c)
        (es - skipSpace mem es s) (skipSpace mem es s) =
          skipSpace mem es s + w.bytes.length := by
      apply skipWhile_eq ht
      · intro b hb
        obtain ⟨-, hspace, hsymbol⟩ := w.plain b hb
        rw [strchr_eq_false hspace, strchr_eq_false hsymbol]
        rfl
      · intro b hb hplain
        rcases hstop b hb with hspace | hsymbol
        · rw [strchr_iff.mpr hspace] at hplain
          cases hplain
        · rw [strchr_iff.mpr hsymbol, Bool.not_true, Bool.and_false] at hplain
          cases hplain
    have hq : gettoken mem es s = ⟨byte 'a',
        ⟨skipSpace mem es s, skipSpace mem es s + w.bytes.length⟩,
        skipSpace mem es (skipSpace mem es s + w.bytes.length)⟩ := by
      obtain ⟨c, u, hcu⟩ := List.exists_cons_of_ne_nil w.nonempty
      obtain ⟨hzero, -, hplain⟩ := w.plain c (by rw [hcu]; exact List.mem_cons_self)
      have hread : mem (skipSpace mem es s) = c := by
        rw [hcu] at ht
        exact ht.1
      have hsymbols : ∀ d ∈ ['|', '(', ')', ';', '&', '<'].map byte, d ∈ symbols := by
        simp [symbols]
      have hother : (['|', '(', ')', ';', '&', '<'].map byte).contains c = false :=
        strchr_eq_false fun hc => hplain (hsymbols c hc)
      have hgreater : c ≠ byte '>' := by
        rintro rfl
        exact hplain greater_symbol
      simp only [gettoken, hread, if_neg hzero, hother, Bool.false_eq_true, if_false,
        if_neg hgreater, hskip]
    rw [hq]
    refine ⟨rfl, ⟨hbytes, rfl, ?_⟩, hspaced.ready hws hnext⟩
    change mem (skipSpace mem es s + w.bytes.length) = 0 ∨ _ ∨ _
    rw [hnext.head]
    cases hline : (ws ++ t).head? with
    | none => exact .inl rfl
    | some b => exact .inr (hstop b (by rw [hline]; rfl))

end Pointers

end ShellTokens
