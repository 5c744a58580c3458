import Xv6Boot.User.Sh

/-! # Printing and parsing a command

A tree printed with parentheses around its sub-commands, and with any whitespace between the tokens, is parsed to
the same tree.
-/

namespace Xv6Boot.User.Sh
open Program

/-! ## Printed commands -/

def Blank (b : List Byte) : Prop := ∀ c ∈ b, isWhitespace c = true

instance (b : List Byte) : Decidable (Blank b) := inferInstanceAs (Decidable (∀ c ∈ b, _))

structure IsWord (w : List Byte) : Prop where
  ne : w ≠ []
  inside : ∀ c ∈ w, inWord c = true ∧ c ≠ 0

def Halts (r : List Byte) : Prop := ∀ c r', r = c :: r' → inWord c = false

/-- The words of an `EXEC`, each after some whitespace and not run together. -/
inductive Words : List (List Byte) → List Byte → Prop
  | nil (b : List Byte) (hb : Blank b) : Words [] b
  | cons (b w : List Byte) (ws : List (List Byte)) (t : List Byte) (hb : Blank b) (hw : IsWord w) (ht : Words ws t)
      (hsep : Halts t) : Words (w :: ws) (b ++ (w ++ t))

inductive Op where
  | input
  | output
  | append

namespace Op

def text : Op → List Byte
  | input => [byte '<']
  | output => [byte '>']
  | append => [byte '>', byte '>']

def mode : Op → ℕ
  | input => O_RDONLY
  | output => O_WRONLY ||| O_CREATE ||| O_TRUNC
  | append => O_WRONLY ||| O_CREATE

def fd : Op → ℕ
  | input => 0
  | output | append => 1

end Op

def paren (t y : List Byte) : List Byte := byte '(' :: (t ++ byte ')' :: y)

inductive Prints : Cmd (List Byte) → List Byte → Prop
  | exec (ws : List (List Byte)) (t : List Byte) (hw : Words ws t) (hn : ws.length ≤ MAXARGS - 1) : Prints (.exec ws) t
  | redir (c : Cmd (List Byte)) (t : List Byte) (op : Op) (f b₁ b₂ b₃ b₄ : List Byte) (hc : Prints c t) (hf : IsWord f)
      (h₁ : Blank b₁) (h₂ : Blank b₂) (h₃ : Blank b₃) (h₄ : Blank b₄) :
      Prints (.redir c f op.mode op.fd) (b₁ ++ paren t (b₂ ++ (op.text ++ (b₃ ++ (f ++ b₄)))))
  | pipe (l r : Cmd (List Byte)) (t u b₁ b₂ b₃ b₄ : List Byte) (hl : Prints l t) (hr : Prints r u)
      (h₁ : Blank b₁) (h₂ : Blank b₂) (h₃ : Blank b₃) (h₄ : Blank b₄) :
      Prints (.pipe l r) (b₁ ++ paren t (b₂ ++ byte '|' :: (b₃ ++ paren u b₄)))
  | list (l r : Cmd (List Byte)) (t u b₁ b₂ b₃ b₄ : List Byte) (hl : Prints l t) (hr : Prints r u)
      (h₁ : Blank b₁) (h₂ : Blank b₂) (h₃ : Blank b₃) (h₄ : Blank b₄) :
      Prints (.list l r) (b₁ ++ paren t (b₂ ++ byte ';' :: (b₃ ++ paren u b₄)))
  | back (c : Cmd (List Byte)) (t b₁ b₂ b₃ : List Byte) (hc : Prints c t) (h₁ : Blank b₁) (h₂ : Blank b₂)
      (h₃ : Blank b₃) : Prints (.back c) (b₁ ++ paren t (b₂ ++ byte '&' :: b₃))

/-- The trees that can be written down: words in every place of one, no more of them in an `EXEC` than `parseexec` takes,
and redirections that have an operator. -/
def Printable : Cmd (List Byte) → Prop
  | .exec ws => (∀ w ∈ ws, IsWord w) ∧ ws.length ≤ MAXARGS - 1
  | .redir c f mode fd => Printable c ∧ IsWord f ∧ ∃ op : Op, op.mode = mode ∧ op.fd = fd
  | .pipe l r | .list l r => Printable l ∧ Printable r
  | .back c => Printable c

theorem exists_words {ws : List (List Byte)} (h : ∀ w ∈ ws, IsWord w) : ∃ t, Words ws t ∧ Halts t := by
  induction ws with
  | nil => exact ⟨[], .nil [] (by decide), fun _ _ h0 => by cases h0⟩
  | cons w ws ih =>
    obtain ⟨t, ht, hsep⟩ := ih fun w' hw => h w' (List.mem_cons_of_mem _ hw)
    refine ⟨_, .cons [byte ' '] w ws t (by decide) (h w List.mem_cons_self) ht hsep, fun c r h0 => ?_⟩
    cases h0
    decide

theorem exists_prints {c : Cmd (List Byte)} (h : Printable c) : ∃ t, Prints c t := by
  have h0 : Blank [] := by decide
  induction c with
  | exec ws =>
    obtain ⟨t, ht, -⟩ := exists_words h.1
    exact ⟨t, .exec ws t ht h.2⟩
  | redir c f mode fd ih =>
    obtain ⟨hc, hf, op, rfl, rfl⟩ := h
    obtain ⟨t, ht⟩ := ih hc
    exact ⟨_, .redir c t op f [] [] [] [] ht hf h0 h0 h0 h0⟩
  | pipe l r ihl ihr =>
    obtain ⟨t, ht⟩ := ihl h.1
    obtain ⟨u, hu⟩ := ihr h.2
    exact ⟨_, .pipe l r t u [] [] [] [] ht hu h0 h0 h0 h0⟩
  | list l r ihl ihr =>
    obtain ⟨t, ht⟩ := ihl h.1
    obtain ⟨u, hu⟩ := ihr h.2
    exact ⟨_, .list l r t u [] [] [] [] ht hu h0 h0 h0 h0⟩
  | back c ih =>
    obtain ⟨t, ht⟩ := ih h
    exact ⟨_, .back c t [] [] [] ht h0 h0 h0⟩

/-! ## Whitespace -/

def trim (l : List Byte) : List Byte := l.dropWhile isWhitespace

variable {b : List Byte} {op : Op}

theorem trim_blank_append (hb : Blank b) (l : List Byte) : trim (b ++ l) = trim l := by
  induction b with
  | nil => rfl
  | cons c b ih =>
    have hc := hb c List.mem_cons_self
    rw [List.cons_append, trim, List.dropWhile_cons_of_pos hc]
    exact ih fun c' h => hb c' (List.mem_cons_of_mem _ h)

theorem trim_cons {c : Byte} (hc : isWhitespace c = false) (l : List Byte) : trim (c :: l) = c :: l :=
  List.dropWhile_cons_of_neg (by rw [hc]; exact Bool.false_ne_true)

theorem trim_trim (l : List Byte) : trim (trim l) = trim l := by
  induction l with
  | nil => rfl
  | cons c l ih =>
    cases hc : isWhitespace c with
    | true =>
      have hdrop : trim (c :: l) = trim l := List.dropWhile_cons_of_pos hc
      rw [hdrop, ih]
    | false => rw [trim_cons hc, trim_cons hc]

theorem length_trim_le (l : List Byte) : (trim l).length ≤ l.length := (List.dropWhile_sublist _).length_le

/-! ## The text at the cursor -/

/-- What is left of the line at the cursor `s`. -/
structure Rest (m : Mem) (es s : ℕ) (l : List Byte) : Prop where
  len : s + l.length = es
  get : ∀ i, ∀ h : i < l.length, m (s + i) = l[i]
  nonzero : ∀ c ∈ l, c ≠ 0
  nul : m es = 0

section Rest
variable {m : Mem} {es s : ℕ} {l r w : List Byte} {c : Byte} {f : Byte → Bool}

theorem Rest.head (h : Rest m es s (c :: l)) : m s = c := h.get 0 (Nat.zero_lt_succ _)

theorem Rest.tail (h : Rest m es s (c :: l)) : Rest m es (s + 1) l := by
  refine ⟨?_, fun i hi => ?_, fun c' hc => h.nonzero c' (List.mem_cons_of_mem _ hc), h.nul⟩
  · have := h.len
    rw [List.length_cons] at this
    omega
  · have := h.get (i + 1) (Nat.succ_lt_succ hi)
    rwa [← Nat.add_assoc, Nat.add_right_comm] at this

theorem Rest.nil (h : Rest m es s []) : m s = 0 := by
  have hs : s = es := h.len
  rw [hs]
  exact h.nul

theorem Rest.drop (h : Rest m es s (w ++ l)) : Rest m es (s + w.length) l := by
  induction w generalizing s with
  | nil => exact h
  | cons c w ih =>
    have := ih h.tail
    rwa [Nat.add_assoc, Nat.add_comm 1, ← List.length_cons] at this

theorem Rest.scan (h : Rest m es s l) : Sh.scan f m es s = s + (l.takeWhile f).length := by
  have hn : es - s = l.length := by
    have := h.len
    omega
  rw [Sh.scan, hn]
  induction l generalizing s with
  | nil => rfl
  | cons c l ih =>
    rw [List.length_cons, scanFor, h.head]
    cases hc : f c with
    | true =>
      rw [if_pos rfl, ih h.tail (by have := h.tail.len; omega), List.takeWhile_cons_of_pos hc, List.length_cons]
      omega
    | false =>
      rw [if_neg Bool.false_ne_true, List.takeWhile_cons_of_neg (by rw [hc]; exact Bool.false_ne_true)]
      rfl

theorem Rest.skip (h : Rest m es s l) : Rest m es (Sh.scan isWhitespace m es s) (trim l) := by
  rw [h.scan]
  refine Rest.drop ?_
  rw [trim, List.takeWhile_append_dropWhile]
  exact h

theorem Rest.slice (h : Rest m es s (w ++ l)) : slice m ⟨s, s + w.length⟩ = w := by
  refine List.ext_getElem ?_ fun i h1 h2 => ?_
  · simp [Sh.slice]
  · have hi : i < (w ++ l).length := by
      rw [List.length_append]
      omega
    simp only [Sh.slice, List.getElem_map, List.getElem_range]
    rw [h.get i hi, List.getElem_append_left h2]

end Rest

/-! ## Tokens of a text -/

/-- The program returns something as described and leaves the text `l`. -/
def Leaves {α : Type} (m : Mem) (es : ℕ) (p : Prog ℕ α) (Q : α → Prop) (l : List Byte) (s : ℕ) : Prop :=
  wp p (fun a s' => Q a ∧ Rest m es s' l) (fun _ => False) s

def starts (toks : List Byte) : List Byte → Bool
  | [] => false
  | c :: _ => toks.contains c

section Tokens
variable {m : Mem} {es s : ℕ} {l r w : List Byte} {c : Byte}

theorem Leaves.bind {α β : Type} {p : Prog ℕ α} {Q : α → Prop} {q : α → Prog ℕ β} {R : β → Prop} {l' : List Byte}
    (h : Leaves m es p Q l s) (hq : ∀ a s', Q a → Rest m es s' l → Leaves m es (q a) R l' s') :
    Leaves m es (p >>= q) R l' s := wp.bind h fun a s' ha => hq a s' ha.1 ha.2

theorem peek_leaves (toks : List Byte) (h : Rest m es s l) :
    Leaves m es (peek m es toks) (· = starts toks (trim l)) (trim l) s := by
  have hskip := h.skip
  simp only [Leaves, peek, wp_bind, wp_get, wp_set, wp_pure]
  refine ⟨?_, hskip⟩
  cases ht : trim l with
  | nil =>
    rw [ht] at hskip
    simp [hskip.nil, starts]
  | cons c r =>
    rw [ht] at hskip
    have hne := hskip.nonzero c List.mem_cons_self
    simp only [hskip.head, starts]
    simpa using fun _ => hne

theorem gettoken_leaves {tok : Byte} {e : ℕ} (ht : tokenAt m es (scan isWhitespace m es s) = (tok, e))
    (hr : Rest m es e r) : Leaves m es (gettoken m es) (fun t => t.tok = tok ∧ t.span = ⟨scan isWhitespace m es s, e⟩)
      (trim r) s := by
  simp only [Leaves, gettoken, wp_bind, wp_get, wp_set, wp_pure, ht]
  exact ⟨by simp, hr.skip⟩

theorem gettoken_nul (h : Rest m es s l) (ht : trim l = []) :
    Leaves m es (gettoken m es) (fun t => t.tok = 0) [] s := by
  have hskip := h.skip
  rw [ht] at hskip
  have hl := gettoken_leaves (if_pos hskip.nil) hskip
  exact wp.mono hl fun t s' ha => ⟨ha.1.1, ha.2⟩

theorem gettoken_symbol (h : Rest m es s l) (ht : trim l = c :: r)
    (hc : [byte '|', byte '(', byte ')', byte ';', byte '&', byte '<'].contains c = true) :
    Leaves m es (gettoken m es) (fun t => t.tok = c) (trim r) s := by
  have hskip := h.skip
  rw [ht] at hskip
  have hne : m (scan isWhitespace m es s) ≠ 0 := by
    rw [hskip.head]
    exact hskip.nonzero c List.mem_cons_self
  have htok : tokenAt m es (scan isWhitespace m es s) = (c, scan isWhitespace m es s + 1) := by
    rw [tokenAt, if_neg hne, hskip.head, if_pos hc]
  exact wp.mono (gettoken_leaves htok hskip.tail) fun t s' ha => ⟨ha.1.1, ha.2⟩

theorem gettoken_output (h : Rest m es s l) (ht : trim l = byte '>' :: r) (hr : ∀ r', r ≠ byte '>' :: r') :
    Leaves m es (gettoken m es) (fun t => t.tok = byte '>') (trim r) s := by
  have hskip := h.skip
  rw [ht] at hskip
  have hnext : m (scan isWhitespace m es s + 1) ≠ byte '>' := by
    cases r with
    | nil =>
      rw [hskip.tail.nil]
      decide
    | cons c r =>
      rw [hskip.tail.head]
      rintro rfl
      exact hr r rfl
  have htok : tokenAt m es (scan isWhitespace m es s) = (byte '>', scan isWhitespace m es s + 1) := by
    rw [tokenAt, hskip.head, if_neg (by decide), if_neg (by decide), if_pos rfl, if_neg hnext]
  exact wp.mono (gettoken_leaves htok hskip.tail) fun t s' ha => ⟨ha.1.1, ha.2⟩

theorem gettoken_append (h : Rest m es s l) (ht : trim l = byte '>' :: byte '>' :: r) :
    Leaves m es (gettoken m es) (fun t => t.tok = byte '+') (trim r) s := by
  have hskip := h.skip
  rw [ht] at hskip
  have htok : tokenAt m es (scan isWhitespace m es s) = (byte '+', scan isWhitespace m es s + 2) := by
    rw [tokenAt, hskip.head, if_neg (by decide), if_neg (by decide), if_pos rfl, hskip.tail.head, if_pos rfl]
  exact wp.mono (gettoken_leaves htok hskip.tail.tail) fun t s' ha => ⟨ha.1.1, ha.2⟩

theorem takeWhile_word (hw : ∀ c ∈ w, inWord c = true) (hr : Halts r) : (w ++ r).takeWhile inWord = w := by
  induction w with
  | nil =>
    cases r with
    | nil => rfl
    | cons c r => exact List.takeWhile_cons_of_neg (by rw [hr c r rfl]; exact Bool.false_ne_true)
  | cons c w ih =>
    rw [List.cons_append, List.takeWhile_cons_of_pos (hw c List.mem_cons_self),
      ih fun c' h => hw c' (List.mem_cons_of_mem _ h)]

theorem IsWord.head (hw : IsWord w) : ∃ c w', w = c :: w' ∧ inWord c = true ∧ c ≠ 0 := by
  cases w with
  | nil => exact absurd rfl hw.ne
  | cons c w' => exact ⟨c, w', rfl, hw.inside c List.mem_cons_self⟩

theorem inWord_not (hc : inWord c = true) : isWhitespace c = false ∧ symbols.contains c = false := by
  unfold inWord at hc
  unfold isWhitespace
  simpa using hc

theorem tokenAt_word {q : ℕ} (h0 : m q ≠ 0) (hs : symbols.contains (m q) = false) :
    tokenAt m es q = (byte 'a', scan inWord m es q) := by
  have hc := tokenAt_cases m es q
  generalize tokenAt m es q = t at hc ⊢
  cases hc with
  | nul h => exact absurd h h0
  | symbol _ _ _ hs' _ _ _ =>
    rw [hs] at hs'
    cases hs'
  | word _ _ => rfl

theorem gettoken_word (h : Rest m es s l) (ht : trim l = w ++ r) (hw : IsWord w) (hr : Halts r) :
    Leaves m es (gettoken m es) (fun t => t.tok = byte 'a' ∧ slice m t.span = w) (trim r) s := by
  have hskip := h.skip
  rw [ht] at hskip
  have htok : tokenAt m es (scan isWhitespace m es s) = (byte 'a', scan isWhitespace m es s + w.length) := by
    obtain ⟨c, w', hcw, hc, h0⟩ := hw.head
    have hm : m (scan isWhitespace m es s) = c := by
      rw [hcw] at hskip
      exact hskip.head
    rw [tokenAt_word (hm ▸ h0) (hm ▸ (inWord_not hc).2), hskip.scan, takeWhile_word (fun c hc => (hw.inside c hc).1) hr]
  refine wp.mono (gettoken_leaves htok hskip.drop) fun t s' ha => ⟨⟨ha.1.1, ?_⟩, ha.2⟩
  rw [ha.1.2]
  exact hskip.slice

end Tokens

/-! ## Redirections -/

section Redirs
variable {m : Mem} {es s : ℕ} {l r f y : List Byte} {rs : List Redir}

def Wraps (m : Mem) (rs : List Redir) (c c₁ : Cmd (List Byte)) : Prop :=
  ∀ c' : Cmd Span, c'.map (slice m) = c → (wrap rs c').map (slice m) = c₁

theorem redirLoop_none {turns : ℕ} (h : Rest m es s l) (hn : starts [byte '<', byte '>'] (trim l) = false)
    (ht : 0 < turns) : Leaves m es (redirLoop m es turns rs) (· = rs) (trim l) s := by
  obtain ⟨n, rfl⟩ : ∃ n, turns = n + 1 := ⟨turns - 1, by omega⟩
  rw [redirLoop]
  refine (peek_leaves _ h).bind fun b s₁ hb h₁ => ?_
  rw [hn] at hb
  subst hb
  exact ⟨rfl, h₁⟩

theorem parseredirs_none (h : Rest m es s l) (hn : starts [byte '<', byte '>'] (trim l) = false) :
    Leaves m es (parseredirs m es rs) (· = rs) (trim l) s := by
  rw [Leaves, parseredirs, wp_bind, wp_get]
  exact redirLoop_none h hn (Nat.zero_lt_succ _)

theorem starts_op (op : Op) (y : List Byte) : starts [byte '<', byte '>'] (op.text ++ y) = true := by
  cases op <;> rfl

theorem gettoken_op (h : Rest m es s l) (ht : trim l = op.text ++ y) (hy : ∀ y', y ≠ byte '>' :: y') :
    Leaves m es (gettoken m es) (fun t => ∀ w : Span, redirFor t.tok w = [⟨w, op.mode, op.fd⟩]) (trim y) s := by
  cases op with
  | input =>
    refine wp.mono (gettoken_symbol h ht (by decide)) fun t s' ha => ⟨fun w => ?_, ha.2⟩
    rw [ha.1]
    rfl
  | output =>
    refine wp.mono (gettoken_output h ht hy) fun t s' ha => ⟨fun w => ?_, ha.2⟩
    rw [ha.1]
    rfl
  | append =>
    refine wp.mono (gettoken_append h ht) fun t s' ha => ⟨fun w => ?_, ha.2⟩
    rw [ha.1]
    rfl

theorem parseredirs_one {c : Cmd (List Byte)} (h : Rest m es s l) (ht : trim l = op.text ++ y)
    (hy : ∀ y', y ≠ byte '>' :: y') (hf : trim y = f ++ r) (hw : IsWord f) (hr : Halts r)
    (hn : starts [byte '<', byte '>'] (trim r) = false) :
    Leaves m es (parseredirs m es []) (fun rs => Wraps m rs c (.redir c f op.mode op.fd)) (trim r) s := by
  have hlen := h.len
  have hpos : 0 < l.length := by
    have hle := length_trim_le l
    rw [ht, List.length_append] at hle
    have : 0 < op.text.length := by cases op <;> decide
    omega
  obtain ⟨n, hturns⟩ : ∃ n, es - s = n + 1 := ⟨es - s - 1, by omega⟩
  rw [Leaves, parseredirs, wp_bind, wp_get, hturns]
  change Leaves m es _ _ _ _
  rw [redirLoop]
  refine (peek_leaves _ h).bind fun b s₁ hb h₁ => ?_
  rw [ht, starts_op] at hb
  subst hb
  rw [if_pos rfl]
  refine (gettoken_op h₁ (by rw [trim_trim]; exact ht) hy).bind fun t s₂ hred h₂ => ?_
  refine (gettoken_word h₂ (by rw [trim_trim]; exact hf) hw hr).bind fun file s₃ hfile h₃ => ?_
  obtain ⟨ha, hslice⟩ := hfile
  rw [if_neg (not_not.mpr ha), List.nil_append, hred]
  have hlast : Leaves m es (redirLoop m es (n + 1) [⟨file.span, op.mode, op.fd⟩]) _ _ s₃ :=
    redirLoop_none h₃ (by rw [trim_trim]; exact hn) (Nat.zero_lt_succ n)
  rw [trim_trim] at hlast
  refine wp.mono hlast fun rs s' ha => ⟨fun c' hc' => ?_, ha.2⟩
  rw [ha.1, wrap, List.foldl_cons, List.foldl_nil, Cmd.map, hc', hslice]

end Redirs

/-! ## Commands -/

def Stops (r : List Byte) : Prop := r = [] ∨ ∃ r', r = byte ')' :: r'

/-- The program returns the tree `c` and leaves the text `l`. -/
def Returns (m : Mem) (es : ℕ) (p : Prog ℕ (Cmd Span)) (c : Cmd (List Byte)) (l : List Byte) (s : ℕ) : Prop :=
  Leaves m es p (fun c' => c'.map (slice m) = c) l s

section Commands
variable {m : Mem} {es s depth : ℕ} {l r t y z : List Byte} {c c₁ : Cmd (List Byte)}

theorem Stops.trim (h : Stops r) : trim r = r := by
  rcases h with rfl | ⟨r', rfl⟩
  · rfl
  · exact trim_cons (by decide) r'

theorem Stops.halts (h : Stops r) : Halts r := by
  rintro c r' rfl
  rcases h with h | ⟨r'', h⟩
  · cases h
  · cases h
    decide

theorem Stops.starts (h : Stops r) {toks : List Byte} (ht : toks.contains (byte ')') = false) :
    starts toks r = false := by
  rcases h with rfl | ⟨r', rfl⟩
  · rfl
  · exact ht

theorem Blank.halts (hb : Blank b) (hr : Halts r) : Halts (b ++ r) := by
  cases b with
  | nil => exact hr
  | cons c b =>
    rintro c' r' h
    cases h
    have hws := hb c List.mem_cons_self
    unfold isWhitespace at hws
    rw [inWord, hws]
    rfl

theorem IsWord.trim {w : List Byte} (hw : IsWord w) (x : List Byte) : trim (w ++ x) = w ++ x := by
  obtain ⟨c, w', rfl, hc, -⟩ := hw.head
  exact trim_cons (inWord_not hc).1 _

theorem IsWord.starts {w : List Byte} (hw : IsWord w) (x : List Byte) {toks : List Byte}
    (ht : ∀ c ∈ toks, inWord c = false) : starts toks (w ++ x) = false := by
  obtain ⟨c, w', rfl, hc, -⟩ := hw.head
  rw [List.cons_append, Sh.starts, ← Bool.not_eq_true, List.contains_iff_mem]
  intro hm
  rw [ht c hm] at hc
  cases hc

theorem Words.starts {ws : List (List Byte)} (hw : Words ws t) (hr : Stops r) {toks : List Byte}
    (ht : ∀ c ∈ toks, inWord c = false) (hp : toks.contains (byte ')') = false) :
    starts toks (Sh.trim (t ++ r)) = false := by
  cases hw with
  | nil b hb =>
    rw [trim_blank_append hb, hr.trim]
    exact hr.starts hp
  | cons b w ws t hb hw _ _ =>
    rw [List.append_assoc, trim_blank_append hb, List.append_assoc, hw.trim]
    exact hw.starts _ ht

theorem Halts.append {x : List Byte} (hx : Halts x) (hr : Halts r) : Halts (x ++ r) := by
  cases x with
  | nil => exact hr
  | cons c x =>
    rintro c' r' h
    cases h
    exact hx c x rfl

theorem argLoop_words {ws : List (List Byte)} {turns : ℕ} {argv : List Span} (hw : Words ws t) (hr : Stops r)
    (h : Rest m es s l) (hl : trim l = trim (t ++ r)) (hn : argv.length + ws.length < MAXARGS) (ht : es - s < turns) :
    Returns m es (argLoop m es turns argv []) (.exec (argv.map (slice m) ++ ws)) r s := by
  induction hw generalizing s l turns argv with
  | nil b hb =>
    obtain ⟨n, rfl⟩ : ∃ n, turns = n + 1 := ⟨turns - 1, by omega⟩
    rw [trim_blank_append hb, hr.trim] at hl
    rw [argLoop]
    refine (peek_leaves _ h).bind fun b s₁ hb h₁ => ?_
    rw [hl] at hb h₁
    rcases hr with rfl | ⟨r', rfl⟩
    · subst hb
      refine (gettoken_nul h₁ rfl).bind fun t s₂ htok h₂ => ?_
      rw [if_pos htok]
      exact ⟨by simp [wrap, Cmd.map], h₂⟩
    · subst hb
      exact ⟨by simp [wrap, Cmd.map], h₁⟩
  | cons b w ws t hb hw hws hsep ih =>
    obtain ⟨n, rfl⟩ : ∃ n, turns = n + 1 := ⟨turns - 1, by omega⟩
    rw [List.append_assoc, trim_blank_append hb, List.append_assoc, hw.trim] at hl
    rw [List.length_cons] at hn
    have hlen : (trim (t ++ r)).length < l.length := by
      have h1 := length_trim_le l
      have h2 := length_trim_le (t ++ r)
      have h3 := List.length_pos_iff.mpr hw.ne
      rw [hl, List.length_append] at h1
      omega
    rw [argLoop]
    refine (peek_leaves _ h).bind fun b s₁ hb h₁ => ?_
    rw [hl, hw.starts _ (by decide)] at hb
    subst hb
    refine (gettoken_word h₁ (by rw [trim_trim]; exact hl) hw (hsep.append hr.halts)).bind fun tk s₂ htk h₂ => ?_
    obtain ⟨ha, hslice⟩ := htk
    rw [if_neg (by rw [ha]; decide), if_neg (not_not.mpr ha), if_neg (by omega)]
    have hnone : starts [byte '<', byte '>'] (trim (t ++ r)) = false := hws.starts hr (by decide) (by decide)
    refine (parseredirs_none h₂ (by rw [trim_trim]; exact hnone)).bind fun rs s₃ hrs h₃ => ?_
    subst hrs
    rw [trim_trim] at h₃
    have hl₃ := h₃.len
    have hl₀ := h.len
    have hrest : Returns m es (argLoop m es n (argv ++ [tk.span]) []) _ r s₃ :=
      ih h₃ (trim_trim _) (by simp; omega) (by omega)
    rw [List.map_append, List.append_assoc, List.map_singleton, hslice] at hrest
    exact hrest

/-- `parseline` reads the text `t` as the command `c`, with enough depth for what is left of the line. -/
def ReadsAs (m : Mem) (es : ℕ) (t : List Byte) (c : Cmd (List Byte)) : Prop :=
  ∀ r, Stops r → ∀ s l depth, Rest m es s l → trim l = trim (t ++ r) → 4 * (es - s) + 4 ≤ depth →
    Returns m es (parseline m es depth) c r s

/-- What the redirections after a block make of it, up to the text `z`. -/
def RedirsTo (m : Mem) (es : ℕ) (y : List Byte) (c c₁ : Cmd (List Byte)) (z : List Byte) : Prop :=
  ∀ s, Rest m es s (trim y) → Leaves m es (parseredirs m es []) (fun rs => Wraps m rs c c₁) z s

theorem redirsTo_none (hy : starts [byte '<', byte '>'] (trim y) = false) : RedirsTo m es y c c (trim y) := by
  intro s h
  have hnone : Leaves m es (parseredirs m es []) _ _ s := parseredirs_none h (by rw [trim_trim]; exact hy)
  rw [trim_trim] at hnone
  refine wp.mono hnone fun rs s' ha => ⟨fun c' hc' => ?_, ha.2⟩
  rw [ha.1]
  exact hc'

theorem trim_paren (t y : List Byte) : trim (paren t y) = paren t y := trim_cons (by decide) _

theorem parseblock_returns (hc : ReadsAs m es t c) (hy : RedirsTo m es y c c₁ z) (h : Rest m es s l)
    (hl : trim l = paren t y) (hd : 4 * (es - s) + 1 ≤ depth) : Returns m es (parseblock m es depth) c₁ z s := by
  obtain ⟨d, rfl⟩ : ∃ d, depth = d + 1 := ⟨depth - 1, by omega⟩
  have hlen : (trim (t ++ byte ')' :: y)).length < l.length := by
    have h1 := length_trim_le l
    have h2 := length_trim_le (t ++ byte ')' :: y)
    rw [hl, paren, List.length_cons] at h1
    omega
  rw [parseblock]
  refine (peek_leaves _ h).bind fun b s₁ hb h₁ => ?_
  rw [hl] at hb h₁
  subst hb
  refine (gettoken_symbol h₁ (trim_paren t y) (by decide)).bind fun _ s₂ _ h₂ => ?_
  have hl₂ := h₂.len
  have hl₀ := h.len
  have hcmd := hc _ (.inr ⟨y, rfl⟩) s₂ _ d h₂ (trim_trim _) (by omega)
  refine Leaves.bind hcmd fun c' s₃ hc' h₃ => ?_
  refine (peek_leaves _ h₃).bind fun b s₄ hb h₄ => ?_
  rw [trim_cons (by decide)] at hb h₄
  subst hb
  refine (gettoken_symbol h₄ (trim_cons (by decide) y) (by decide)).bind fun _ s₅ _ h₅ => ?_
  refine (hy s₅ h₅).bind fun rs s₆ hrs h₆ => ?_
  exact ⟨hrs c' hc', h₆⟩

theorem parseexec_block (hc : ReadsAs m es t c) (hy : RedirsTo m es y c c₁ z) (h : Rest m es s l)
    (hl : trim l = paren t y) (hd : 4 * (es - s) + 2 ≤ depth) : Returns m es (parseexec m es depth) c₁ z s := by
  obtain ⟨d, rfl⟩ : ∃ d, depth = d + 1 := ⟨depth - 1, by omega⟩
  rw [parseexec]
  refine (peek_leaves _ h).bind fun b s₁ hb h₁ => ?_
  have hl₁ := h₁.len
  have hl₀ := h.len
  have hle := length_trim_le l
  rw [hl] at hb h₁
  subst hb
  exact parseblock_returns hc hy h₁ (trim_paren t y) (by omega)

theorem parseexec_words {ws : List (List Byte)} (hw : Words ws t) (hn : ws.length ≤ MAXARGS - 1) (hr : Stops r)
    (h : Rest m es s l) (hl : trim l = trim (t ++ r)) (hd : 0 < depth) :
    Returns m es (parseexec m es depth) (.exec ws) r s := by
  obtain ⟨d, rfl⟩ : ∃ d, depth = d + 1 := ⟨depth - 1, by omega⟩
  have hopen : starts [byte '('] (trim l) = false := hl ▸ hw.starts hr (by decide) (by decide)
  have hredir : starts [byte '<', byte '>'] (trim l) = false := hl ▸ hw.starts hr (by decide) (by decide)
  rw [parseexec]
  refine (peek_leaves _ h).bind fun b s₁ hb h₁ => ?_
  rw [hopen] at hb
  subst hb
  refine (parseredirs_none h₁ (by rw [trim_trim]; exact hredir)).bind fun ret s₂ hret h₂ => ?_
  subst hret
  rw [trim_trim] at h₂
  rw [Leaves, wp_bind, wp_get]
  have hnum : ([] : List Span).length + ws.length < MAXARGS := by
    rw [List.length_nil, MAXARGS] at *
    omega
  exact argLoop_words hw hr h₂ (by rw [trim_trim]; exact hl) hnum (Nat.lt_succ_self _)

theorem parsepipe_of_exec (hc : Returns m es (parseexec m es depth) c z s) (hz : trim z = z)
    (hp : starts [byte '|'] z = false) : Returns m es (parsepipe m es (depth + 1)) c z s := by
  rw [parsepipe]
  refine Leaves.bind hc fun c' s₁ hc' h₁ => ?_
  refine (peek_leaves _ h₁).bind fun b s₂ hb h₂ => ?_
  rw [hz] at hb h₂
  rw [hp] at hb
  subst hb
  exact ⟨hc', h₂⟩

theorem parsepipe_of_bar {c₂ : Cmd (List Byte)} (hc : Returns m es (parseexec m es depth) c (byte '|' :: y) s)
    (hr : ∀ s', Rest m es s' (trim y) → Returns m es (parsepipe m es depth) c₂ z s') :
    Returns m es (parsepipe m es (depth + 1)) (.pipe c c₂) z s := by
  rw [parsepipe]
  refine Leaves.bind hc fun c' s₁ hc' h₁ => ?_
  refine (peek_leaves _ h₁).bind fun b s₂ hb h₂ => ?_
  rw [trim_cons (by decide)] at hb h₂
  subst hb
  refine (gettoken_symbol h₂ (trim_cons (by decide) y) (by decide)).bind fun _ s₃ _ h₃ => ?_
  refine Leaves.bind (hr s₃ h₃) fun r' s₄ hr' h₄ => ?_
  exact ⟨congrArg₂ Cmd.pipe hc' hr', h₄⟩

theorem backLoop_none {turns : ℕ} {c' : Cmd Span} (h : Rest m es s l) (hn : starts [byte '&'] (trim l) = false)
    (ht : 0 < turns) : Leaves m es (backLoop m es turns c') (· = c') (trim l) s := by
  obtain ⟨n, rfl⟩ : ∃ n, turns = n + 1 := ⟨turns - 1, by omega⟩
  rw [backLoop]
  refine (peek_leaves _ h).bind fun b s₁ hb h₁ => ?_
  rw [hn] at hb
  subst hb
  exact ⟨rfl, h₁⟩

theorem parseline_of_backs {p : Prog ℕ (Cmd Span)} (hz : trim z = z) (hn : starts [byte ';'] z = false)
    (hp : Returns m es p c z s) :
    Returns m es (p >>= fun cmd => do
      if ← peek m es [byte ';'] then
        let _ ← gettoken m es
        let right ← parseline m es depth
        pure (.list cmd right)
      else pure cmd) c z s := by
  refine Leaves.bind hp fun c' s₁ hc' h₁ => ?_
  refine (peek_leaves _ h₁).bind fun b s₂ hb h₂ => ?_
  rw [hz] at hb h₂
  rw [hn] at hb
  subst hb
  exact ⟨hc', h₂⟩

theorem parseline_of_pipe (hc : Returns m es (parsepipe m es depth) c z s) (hz : trim z = z)
    (hb : starts [byte '&'] z = false) (hn : starts [byte ';'] z = false) :
    Returns m es (parseline m es (depth + 1)) c z s := by
  rw [parseline]
  refine Leaves.bind hc fun c' s₁ hc' h₁ => ?_
  rw [Leaves, wp_bind, wp_get]
  refine parseline_of_backs hz hn ?_
  have hnone : Leaves m es (backLoop m es (es - s₁ + 1) c') _ _ s₁ := backLoop_none h₁ (hz.symm ▸ hb) (Nat.zero_lt_succ _)
  rw [hz] at hnone
  exact wp.mono hnone fun c'' s' ha => ⟨by rw [ha.1]; exact hc', ha.2⟩

theorem parseline_of_amp (hc : Returns m es (parsepipe m es depth) c (byte '&' :: y) s)
    (hb : starts [byte '&'] (trim y) = false) (hn : starts [byte ';'] (trim y) = false) :
    Returns m es (parseline m es (depth + 1)) (.back c) (trim y) s := by
  rw [parseline]
  refine Leaves.bind hc fun c' s₁ hc' h₁ => ?_
  rw [Leaves, wp_bind, wp_get]
  refine parseline_of_backs (trim_trim y) hn ?_
  have hlen := h₁.len
  rw [List.length_cons] at hlen
  obtain ⟨n, hturns⟩ : ∃ n, es - s₁ = n + 1 := ⟨es - s₁ - 1, by omega⟩
  rw [hturns, backLoop]
  refine (peek_leaves _ h₁).bind fun b s₂ hb' h₂ => ?_
  rw [trim_cons (by decide)] at hb' h₂
  subst hb'
  refine (gettoken_symbol h₂ (trim_cons (by decide) y) (by decide)).bind fun _ s₃ _ h₃ => ?_
  have hnone : Leaves m es (backLoop m es (n + 1) (.back c')) _ _ s₃ :=
    backLoop_none h₃ (by rw [trim_trim]; exact hb) (Nat.zero_lt_succ _)
  rw [trim_trim] at hnone
  refine wp.mono hnone fun c'' s' ha => ⟨?_, ha.2⟩
  rw [ha.1]
  exact congrArg Cmd.back hc'

theorem parseline_of_semi {c₂ : Cmd (List Byte)} (hc : Returns m es (parsepipe m es depth) c (byte ';' :: y) s)
    (hr : ∀ s', Rest m es s' (trim y) → Returns m es (parseline m es depth) c₂ z s') :
    Returns m es (parseline m es (depth + 1)) (.list c c₂) z s := by
  rw [parseline]
  refine Leaves.bind hc fun c' s₁ hc' h₁ => ?_
  rw [Leaves, wp_bind, wp_get]
  have hnone : Leaves m es (backLoop m es (es - s₁ + 1) c') _ _ s₁ := backLoop_none h₁ rfl (Nat.zero_lt_succ _)
  refine hnone.bind fun c'' s₂ hc'' h₂ => ?_
  refine (peek_leaves _ h₂).bind fun b s₃ hb h₃ => ?_
  rw [trim_trim, trim_cons (by decide)] at hb h₃
  subst hb
  refine (gettoken_symbol h₃ (trim_cons (by decide) y) (by decide)).bind fun _ s₄ _ h₄ => ?_
  refine Leaves.bind (hr s₄ h₄) fun r' s₅ hr' h₅ => ?_
  subst hc''
  exact ⟨congrArg₂ Cmd.list hc' hr', h₅⟩

theorem paren_append (t y r : List Byte) : paren t y ++ r = paren t (y ++ r) := by
  simp [paren]

theorem trim_op (op : Op) (y : List Byte) : trim (op.text ++ y) = op.text ++ y := by
  cases op <;> exact trim_cons (by decide) _

theorem word_ne_output {f x : List Byte} (hb : Blank b) (hf : IsWord f) (y' : List Byte) :
    b ++ (f ++ x) ≠ byte '>' :: y' := by
  intro h
  cases b with
  | nil =>
    obtain ⟨c, f', rfl, hc, -⟩ := hf.head
    cases h
    exact absurd hc (by decide)
  | cons c b =>
    cases h
    exact absurd (hb _ List.mem_cons_self) (by decide)

theorem redirsTo_one {f b₂ b₃ b₄ : List Byte} (hf : IsWord f) (h₂ : Blank b₂) (h₃ : Blank b₃) (h₄ : Blank b₄)
    (hr : Stops r) : RedirsTo m es (b₂ ++ (op.text ++ (b₃ ++ (f ++ (b₄ ++ r))))) c (.redir c f op.mode op.fd) r := by
  intro s h
  rw [trim_blank_append h₂, trim_op] at h
  have hend : trim (b₄ ++ r) = r := by rw [trim_blank_append h₄, hr.trim]
  have hone : Leaves m es (parseredirs m es []) (fun rs => Wraps m rs c (.redir c f op.mode op.fd)) (trim (b₄ ++ r)) s :=
    parseredirs_one h (trim_op op _) (word_ne_output h₃ hf) (by rw [trim_blank_append h₃, hf.trim]) hf
      (h₄.halts hr.halts) (by rw [hend]; exact hr.starts (by decide))
  rwa [hend] at hone

theorem Rest.further {s' : ℕ} {l' : List Byte} (h : Rest m es s l) (h' : Rest m es s' l')
    (hlen : l'.length < (Sh.trim l).length) : es - s' < es - s := by
  have h1 := h.len
  have h2 := h'.len
  have h3 := length_trim_le l
  omega

theorem parseexec_before {x : Byte} (hc : ReadsAs m es t c) (hb : Blank b)
    (hx : isWhitespace x = false ∧ [byte '<', byte '>'].contains x = false) (h : Rest m es s l)
    (hl : trim l = paren t (b ++ x :: y)) (hd : 4 * (es - s) + 2 ≤ depth) :
    Returns m es (parseexec m es depth) c (x :: y) s := by
  have hend : trim (b ++ x :: y) = x :: y := by rw [trim_blank_append hb, trim_cons hx.1]
  have hblock := parseexec_block hc (redirsTo_none (by rw [hend]; exact hx.2)) h hl hd
  rwa [hend] at hblock

theorem parseexec_last (hc : ReadsAs m es t c) (hb : Blank b) (hr : Stops r) (h : Rest m es s l)
    (hl : trim l = paren t (b ++ r)) (hd : 4 * (es - s) + 2 ≤ depth) : Returns m es (parseexec m es depth) c r s := by
  have hend : trim (b ++ r) = r := by rw [trim_blank_append hb, hr.trim]
  have hblock := parseexec_block hc (redirsTo_none (by rw [hend]; exact hr.starts (by decide))) h hl hd
  rwa [hend] at hblock

theorem parseline_of_exec (hr : Stops r) (h : Returns m es (parseexec m es depth) c r s) :
    Returns m es (parseline m es (depth + 2)) c r s :=
  parseline_of_pipe (parsepipe_of_exec h hr.trim (hr.starts (by decide))) hr.trim (hr.starts (by decide))
    (hr.starts (by decide))

theorem Prints.readsAs (h : Prints c t) : ReadsAs m es t c := by
  induction h with
  | exec ws t hw hn =>
    intro r hr s l depth hs hl hd
    obtain ⟨d, rfl⟩ : ∃ d, depth = d + 3 := ⟨depth - 3, by omega⟩
    exact parseline_of_exec hr (parseexec_words hw hn hr hs hl (Nat.zero_lt_succ d))
  | redir c t op f b₁ b₂ b₃ b₄ hc hf h₁ h₂ h₃ h₄ ih =>
    intro r hr s l depth hs hl hd
    obtain ⟨d, rfl⟩ : ∃ d, depth = d + 3 := ⟨depth - 3, by omega⟩
    have htext : trim l = paren t (b₂ ++ (op.text ++ (b₃ ++ (f ++ (b₄ ++ r))))) := by
      rw [hl, List.append_assoc, trim_blank_append h₁, paren_append, trim_paren]
      simp only [List.append_assoc]
    exact parseline_of_exec hr (parseexec_block ih (redirsTo_one hf h₂ h₃ h₄ hr) hs htext (by omega))
  | pipe c₁ c₂ t u b₁ b₂ b₃ b₄ _ _ h₁ h₂ h₃ h₄ ih₁ ih₂ =>
    intro r hr s l depth hs hl hd
    obtain ⟨d, rfl⟩ : ∃ d, depth = d + 3 := ⟨depth - 3, by omega⟩
    have htext : trim l = paren t (b₂ ++ byte '|' :: (b₃ ++ paren u (b₄ ++ r))) := by
      rw [hl, List.append_assoc, trim_blank_append h₁, paren_append, trim_paren, List.append_assoc, List.cons_append,
        List.append_assoc, paren_append]
    have hleft : Returns m es (parseexec m es (d + 1)) _ _ s := parseexec_before ih₁ h₂ (by decide) hs htext (by omega)
    refine parseline_of_pipe (parsepipe_of_bar hleft fun s' hs' => ?_) hr.trim (hr.starts (by decide))
      (hr.starts (by decide))
    rw [trim_blank_append h₃, trim_paren] at hs'
    have hfar := hs.further hs' (by rw [htext]; simp [paren]; omega)
    refine parsepipe_of_exec ?_ hr.trim (hr.starts (by decide))
    exact parseexec_last ih₂ h₄ hr hs' (trim_paren _ _) (by omega)
  | list c₁ c₂ t u b₁ b₂ b₃ b₄ _ _ h₁ h₂ h₃ h₄ ih₁ ih₂ =>
    intro r hr s l depth hs hl hd
    obtain ⟨d, rfl⟩ : ∃ d, depth = d + 3 := ⟨depth - 3, by omega⟩
    have htext : trim l = paren t (b₂ ++ byte ';' :: (b₃ ++ paren u (b₄ ++ r))) := by
      rw [hl, List.append_assoc, trim_blank_append h₁, paren_append, trim_paren, List.append_assoc, List.cons_append,
        List.append_assoc, paren_append]
    have hleft : Returns m es (parseexec m es (d + 1)) _ _ s := parseexec_before ih₁ h₂ (by decide) hs htext (by omega)
    refine parseline_of_semi (parsepipe_of_exec hleft (trim_cons (by decide) _) rfl) fun s' hs' => ?_
    rw [trim_blank_append h₃, trim_paren] at hs'
    have hfar := hs.further hs' (by rw [htext]; simp [paren]; omega)
    exact parseline_of_exec hr (parseexec_last ih₂ h₄ hr hs' (trim_paren _ _) (by omega))
  | back c t b₁ b₂ b₃ _ h₁ h₂ h₃ ih =>
    intro r hr s l depth hs hl hd
    obtain ⟨d, rfl⟩ : ∃ d, depth = d + 3 := ⟨depth - 3, by omega⟩
    have htext : trim l = paren t (b₂ ++ byte '&' :: (b₃ ++ r)) := by
      rw [hl, List.append_assoc, trim_blank_append h₁, paren_append, trim_paren, List.append_assoc, List.cons_append]
    have hend : trim (b₃ ++ r) = r := by rw [trim_blank_append h₃, hr.trim]
    have hleft : Returns m es (parseexec m es (d + 1)) _ _ s := parseexec_before ih h₂ (by decide) hs htext (by omega)
    have hback := parseline_of_amp (parsepipe_of_exec hleft (trim_cons (by decide) _) rfl)
      (by rw [hend]; exact hr.starts (by decide)) (by rw [hend]; exact hr.starts (by decide))
    rwa [hend] at hback

end Commands

/-! ## The round trip -/

theorem Cmd.map_congr {α β : Type} {f g : α → β} {c : Cmd α} (h : ∀ w ∈ c.words, f w = g w) : c.map f = c.map g := by
  induction c with
  | exec argv => exact congrArg Cmd.exec (List.map_congr_left h)
  | redir c file _ _ ih =>
    rw [Cmd.map, Cmd.map, ih fun w hw => h w (List.mem_append_left _ hw),
      h file (List.mem_append_right _ (List.mem_singleton.mpr rfl))]
  | pipe l r ihl ihr =>
    rw [Cmd.map, Cmd.map, ihl fun w hw => h w (List.mem_append_left _ hw), ihr fun w hw => h w (List.mem_append_right _ hw)]
  | list l r ihl ihr =>
    rw [Cmd.map, Cmd.map, ihl fun w hw => h w (List.mem_append_left _ hw), ihr fun w hw => h w (List.mem_append_right _ hw)]
  | back c ih => rw [Cmd.map, Cmd.map, ih h]

theorem Line.rest {m : Mem} {s es : ℕ} (hl : Line m s es) : Rest m es s (slice m ⟨s, es⟩) := by
  have hle := hl.le
  have hlen : (slice m ⟨s, es⟩).length = es - s := by simp [slice]
  refine ⟨by omega, fun i hi => ?_, fun c hc => ?_, hl.nul⟩
  · simp [slice]
  · obtain ⟨i, hi, rfl⟩ := List.mem_map.mp hc
    have := List.mem_range.mp hi
    exact hl.nonzero _ (Nat.le_add_right s i) (show s + i < es by dsimp only at this; omega)

/-- **The round trip.** Wherever the text of a command is in memory, `parsecmd` returns its tree: the words of the
tree it builds, read as C strings from the memory it leaves, are those of the command. -/
theorem parsecmd_prints (c : Cmd (List Byte)) (t : List Byte) (h : Prints c t) (m : Mem) (s es : ℕ) (hl : Line m s es)
    (ht : slice m ⟨s, es⟩ = t) :
    ∃ c' m', parsecmd m es s = .ok (c', m') ∧ c'.map (fun w => cstring m' (es + 1 - w.start) w.start) = c := by
  have hrest := hl.rest
  rw [ht] at hrest
  have hreads : ReadsAs m es t c := h.readsAs
  have hline := hreads [] (.inl rfl) s t _ hrest (by rw [List.append_nil]) le_rfl
  obtain ⟨c', s', hparse, hc', hend⟩ := wp.exists_ok hline
  have hfrom := (((parses hl _ s le_rfl hl.le).line le_rfl).of_ok hparse).1
  have hskip : scan isWhitespace m es s' = es := hend.skip.len
  refine ⟨c', nulterminate c' m, by rw [parsecmd_eq hparse, if_neg (not_not.mpr hskip)], ?_⟩
  rw [← hc']
  exact Cmd.map_congr fun w hw => cstring_nulterminate hfrom hl hw

theorem spaced_prints : Prints (.redir (.exec [[byte 'a'], [byte 'b']]) [byte 'f'] Op.output.mode Op.output.fd)
    (['(', 'a', ' ', 'b', ')', ' ', '>', ' ', 'f'].map byte) := by
  have hword : ∀ c : Byte, inWord c = true → c ≠ 0 → IsWord [c] := fun c h1 h2 =>
    ⟨List.cons_ne_nil c [], fun c' h => List.mem_singleton.mp h ▸ ⟨h1, h2⟩⟩
  have hhalts : Halts ([byte ' '] ++ ([byte 'b'] ++ [])) := by
    rintro c r' h
    cases h
    decide
  have hwords : Words [[byte 'a'], [byte 'b']] ([] ++ ([byte 'a'] ++ ([byte ' '] ++ ([byte 'b'] ++ [])))) :=
    .cons [] _ _ _ (by decide) (hword _ (by decide) (by decide))
      (.cons [byte ' '] _ _ _ (by decide) (hword _ (by decide) (by decide)) (.nil [] (by decide)) fun c r' h => by cases h)
      hhalts
  exact .redir _ _ .output [byte 'f'] [] [byte ' '] [byte ' '] [] (.exec _ _ hwords (by decide))
    (hword _ (by decide) (by decide)) (by decide) (by decide) (by decide) (by decide)

def spacedLine : Mem := fun i => (['(', 'a', ' ', 'b', ')', ' ', '>', ' ', 'f'].map byte).getD i 0

theorem spacedLine_line : Line spacedLine 0 9 := by
  have h : ∀ k < 9, spacedLine k ≠ 0 := by decide +kernel
  exact ⟨Nat.zero_le 9, fun i _ hi => h i hi, by decide +kernel⟩

theorem spacedLine_round_trip : ∃ c' m', parsecmd spacedLine 9 0 = .ok (c', m') ∧
    c'.map (fun w => cstring m' (10 - w.start) w.start) =
      .redir (.exec [[byte 'a'], [byte 'b']]) [byte 'f'] Op.output.mode Op.output.fd :=
  parsecmd_prints _ _ spaced_prints spacedLine 0 9 spacedLine_line (by decide +kernel)

end Xv6Boot.User.Sh
