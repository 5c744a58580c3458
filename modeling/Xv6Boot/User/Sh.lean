import Xv6Boot.Foundations.Program

/-! # `sh.c`: the parser of the shell

Pointers are numbers, the cursor `*ps` is the state of a program that stops at a call of `panic`, and `es` is the
end of the line. A tree is one of words; the parser makes its words of pointers into the line. An `execcmd` that
still grows while redirections are put around it is kept as the list of those. Every call of `malloc` succeeds.
-/

namespace Xv6Boot.User.Sh
open Function Program

abbrev Byte := BitVec 8

abbrev Mem := ℕ → Byte

/-! ## Trees -/

def MAXARGS : ℕ := 10

def O_RDONLY : ℕ := 0x000

def O_WRONLY : ℕ := 0x001

def O_CREATE : ℕ := 0x200

def O_TRUNC : ℕ := 0x400

inductive Cmd (α : Type) where
  | exec (argv : List α)
  | redir (cmd : Cmd α) (file : α) (mode fd : ℕ)
  | pipe (left right : Cmd α)
  | list (left right : Cmd α)
  | back (cmd : Cmd α)
  deriving DecidableEq

namespace Cmd
variable {α β : Type}

def map (f : α → β) : Cmd α → Cmd β
  | exec argv => exec (argv.map f)
  | redir cmd file mode fd => redir (cmd.map f) (f file) mode fd
  | pipe left right => pipe (left.map f) (right.map f)
  | list left right => list (left.map f) (right.map f)
  | back cmd => back (cmd.map f)

def words : Cmd α → List α
  | exec argv => argv
  | redir cmd file _ _ => cmd.words ++ [file]
  | pipe left right | list left right => left.words ++ right.words
  | back cmd => cmd.words

end Cmd

/-- The pointers `argv[i]` and `eargv[i]`, or `file` and `efile`. -/
structure Span where
  start : ℕ
  stop : ℕ
  deriving DecidableEq

structure Redir where
  file : Span
  mode : ℕ
  fd : ℕ

def wrap (rs : List Redir) (cmd : Cmd Span) : Cmd Span := rs.foldl (fun cmd r => .redir cmd r.file r.mode r.fd) cmd

/-! ## Tokens -/

def byte (c : Char) : Byte := BitVec.ofNat 8 c.toNat

def whitespace : List Byte := [' ', '\t', '\r', '\n', '\x0b'].map byte

def symbols : List Byte := ['<', '|', '>', '&', ';', '(', ')'].map byte

def isWhitespace (c : Byte) : Bool := whitespace.contains c

def inWord (c : Byte) : Bool := !whitespace.contains c && !symbols.contains c

def scanFor (f : Byte → Bool) (m : Mem) : ℕ → ℕ → ℕ
  | 0, s => s
  | n + 1, s => if f (m s) then scanFor f m n (s + 1) else s

/-- `while(s < es && f(*s)) s++` -/
def scan (f : Byte → Bool) (m : Mem) (es s : ℕ) : ℕ := scanFor f m (es - s) s

structure Token where
  tok : Byte
  span : Span

section Parser
variable (m : Mem) (es : ℕ)

/-- The switch of `gettoken` at `*s`: the kind of the token and where it ends. -/
def tokenAt (s : ℕ) : Byte × ℕ :=
  if m s = 0 then (0, s)
  else if [byte '|', byte '(', byte ')', byte ';', byte '&', byte '<'].contains (m s) then (m s, s + 1)
  else if m s = byte '>' then
    if m (s + 1) = byte '>' then (byte '+', s + 2) else (byte '>', s + 1)
  else (byte 'a', scan inWord m es s)

def gettoken : Prog ℕ Token := do
  let q := scan isWhitespace m es (← get)
  let (tok, eq) := tokenAt m es q
  set (scan isWhitespace m es eq)
  pure ⟨tok, q, eq⟩

def peek (toks : List Byte) : Prog ℕ Bool := do
  let s := scan isWhitespace m es (← get)
  set s
  pure (m s ≠ 0 && toks.contains (m s))

/-! ## The grammar -/

/-- The switch of `parseredirs`. -/
def redirFor (tok : Byte) (file : Span) : List Redir :=
  if tok = byte '<' then [⟨file, O_RDONLY, 0⟩]
  else if tok = byte '>' then [⟨file, O_WRONLY ||| O_CREATE ||| O_TRUNC, 1⟩]
  else if tok = byte '+' then [⟨file, O_WRONLY ||| O_CREATE, 1⟩]
  else []

/-- The loop of `parseredirs`, for at most `turns` turns. -/
def redirLoop : ℕ → List Redir → Prog ℕ (List Redir)
  | 0, _ => stop "fuel"
  | turns + 1, rs => do
    if ← peek m es [byte '<', byte '>'] then
      let t ← gettoken m es
      let file ← gettoken m es
      if file.tok ≠ byte 'a' then stop "missing file for redirection"
      else redirLoop turns (rs ++ redirFor t.tok file.span)
    else pure rs

def parseredirs (rs : List Redir) : Prog ℕ (List Redir) := do
  redirLoop m es (es - (← get) + 1) rs

def argLoop : ℕ → List Span → List Redir → Prog ℕ (Cmd Span)
  | 0, _, _ => stop "fuel"
  | turns + 1, argv, ret => do
    if ← peek m es [byte '|', byte ')', byte '&', byte ';'] then pure (wrap ret (.exec argv))
    else
      let t ← gettoken m es
      if t.tok = 0 then pure (wrap ret (.exec argv))
      else if t.tok ≠ byte 'a' then stop "syntax"
      else if argv.length + 1 ≥ MAXARGS then stop "too many args"
      else
        let ret ← parseredirs m es ret
        argLoop turns (argv ++ [t.span]) ret

def backLoop : ℕ → Cmd Span → Prog ℕ (Cmd Span)
  | 0, _ => stop "fuel"
  | turns + 1, cmd => do
    if ← peek m es [byte '&'] then
      let _ ← gettoken m es
      backLoop turns (.back cmd)
    else pure cmd

mutual

def parseline : ℕ → Prog ℕ (Cmd Span)
  | 0 => stop "fuel"
  | depth + 1 => do
    let cmd ← parsepipe depth
    let cmd ← backLoop m es (es - (← get) + 1) cmd
    if ← peek m es [byte ';'] then
      let _ ← gettoken m es
      let right ← parseline depth
      pure (.list cmd right)
    else pure cmd

def parsepipe : ℕ → Prog ℕ (Cmd Span)
  | 0 => stop "fuel"
  | depth + 1 => do
    let cmd ← parseexec depth
    if ← peek m es [byte '|'] then
      let _ ← gettoken m es
      let right ← parsepipe depth
      pure (.pipe cmd right)
    else pure cmd

def parseexec : ℕ → Prog ℕ (Cmd Span)
  | 0 => stop "fuel"
  | depth + 1 => do
    if ← peek m es [byte '('] then parseblock depth
    else
      let ret ← parseredirs m es []
      argLoop m es (es - (← get) + 1) [] ret

def parseblock : ℕ → Prog ℕ (Cmd Span)
  | 0 => stop "fuel"
  | depth + 1 => do
    if ← peek m es [byte '('] then
      let _ ← gettoken m es
      let cmd ← parseline depth
      if ← peek m es [byte ')'] then
        let _ ← gettoken m es
        let rs ← parseredirs m es []
        pure (wrap rs cmd)
      else stop "syntax - missing )"
    else stop "parseblock"

end

def nulterminate : Cmd Span → Mem → Mem
  | .exec argv, m => argv.foldl (fun m w => update m w.stop 0) m
  | .redir cmd file _ _, m => update (nulterminate cmd m) file.stop 0
  | .pipe left right, m | .list left right, m => nulterminate right (nulterminate left m)
  | .back cmd, m => nulterminate cmd m

/-- A tree and the memory its words are in; `es` is `s + strlen(s)`. What does not belong to the command is
printed before the panic. -/
def parsecmd (s : ℕ) : Except String (Cmd Span × Mem) := do
  let (cmd, s) ← parseline m es (4 * (es - s) + 4) s
  let (_, s) ← peek m es [] s
  if s ≠ es then .error "syntax" else pure (cmd, nulterminate cmd m)

end Parser

/-! ## Scanning -/

section Scan
variable {f : Byte → Bool} {m : Mem} {es s : ℕ}

theorem scanFor_spec (n : ℕ) : s ≤ scanFor f m n s ∧ scanFor f m n s ≤ s + n ∧
    (∀ i, s ≤ i → i < scanFor f m n s → f (m i) = true) ∧
    (scanFor f m n s < s + n → f (m (scanFor f m n s)) = false) := by
  induction n generalizing s with
  | zero => exact ⟨le_rfl, le_rfl, fun i h1 h2 => absurd h2 (not_lt.mpr h1), fun h => absurd h (lt_irrefl _)⟩
  | succ n ih =>
    rw [scanFor]
    split
    · rename_i hf
      obtain ⟨h1, h2, h3, h4⟩ := @ih (s + 1)
      refine ⟨by omega, by omega, fun i hi hlt => ?_, fun hlt => h4 (by omega)⟩
      by_cases he : i = s
      · rw [he]
        exact hf
      · exact h3 i (by omega) hlt
    · rename_i hf
      exact ⟨le_rfl, by omega, fun i h1 h2 => absurd h2 (not_lt.mpr h1), fun _ => by simpa using hf⟩

theorem le_scan : s ≤ scan f m es s := (scanFor_spec _).1

theorem scan_le (h : s ≤ es) : scan f m es s ≤ es := by
  have := (scanFor_spec (f := f) (m := m) (s := s) (es - s)).2.1
  unfold scan
  omega

theorem scan_before {i : ℕ} (h1 : s ≤ i) (h2 : i < scan f m es s) : f (m i) = true := (scanFor_spec _).2.2.1 i h1 h2

theorem scan_at (h : s ≤ es) (hlt : scan f m es s < es) : f (m (scan f m es s)) = false := by
  refine (scanFor_spec (es - s)).2.2.2 ?_
  unfold scan at hlt
  omega

theorem scan_eq_self (h : f (m s) = false) : scan f m es s = s := by
  unfold scan
  cases es - s with
  | zero => rfl
  | succ n => rw [scanFor, h, if_neg Bool.false_ne_true]

theorem lt_scan (h : s < es) (hf : f (m s) = true) : s < scan f m es s := by
  obtain ⟨n, hn⟩ : ∃ n, es - s = n + 1 := ⟨es - s - 1, by omega⟩
  rw [scan, hn, scanFor, if_pos hf]
  exact (scanFor_spec n).1

end Scan

/-! ## What a token is -/

/-- A C string from `s` to `es`. -/
structure Line (m : Mem) (s es : ℕ) : Prop where
  le : s ≤ es
  nonzero : ∀ i, s ≤ i → i < es → m i ≠ 0
  nul : m es = 0

inductive TokenCases (m : Mem) (es s : ℕ) : Byte × ℕ → Prop
  | nul (h : m s = 0) : TokenCases m es s (0, s)
  | symbol (tok : Byte) (e : ℕ) (h0 : m s ≠ 0) (hs : symbols.contains (m s) = true) (ht : tok ≠ 0) (ha : tok ≠ byte 'a')
      (he : e = s + 1 ∨ m (s + 1) ≠ 0 ∧ e = s + 2) : TokenCases m es s (tok, e)
  | word (h0 : m s ≠ 0) (hs : symbols.contains (m s) = false) : TokenCases m es s (byte 'a', scan inWord m es s)

theorem tokenAt_cases (m : Mem) (es s : ℕ) : TokenCases m es s (tokenAt m es s) := by
  unfold tokenAt
  by_cases h0 : m s = 0
  · rw [if_pos h0]
    exact .nul h0
  rw [if_neg h0]
  by_cases h1 : [byte '|', byte '(', byte ')', byte ';', byte '&', byte '<'].contains (m s) = true
  · rw [if_pos h1]
    have hsym : symbols.contains (m s) = true ∧ m s ≠ byte 'a' := by
      revert h1
      generalize m s = c
      revert c
      decide
    exact .symbol _ _ h0 hsym.1 h0 hsym.2 (.inl rfl)
  rw [if_neg h1]
  by_cases h2 : m s = byte '>'
  · rw [if_pos h2]
    have hsym : symbols.contains (m s) = true := by
      rw [h2]
      decide
    by_cases h3 : m (s + 1) = byte '>'
    · rw [if_pos h3]
      refine .symbol _ _ h0 hsym (by decide) (by decide) (.inr ⟨?_, rfl⟩)
      rw [h3]
      decide
    · rw [if_neg h3]
      exact .symbol _ _ h0 hsym (by decide) (by decide) (.inl rfl)
  · rw [if_neg h2]
    refine .word h0 ?_
    revert h1 h2
    generalize m s = c
    revert c
    decide

/-- `gettoken` at the start of the span finds a word there that ends where the span ends. -/
structure Word (m : Mem) (es : ℕ) (w : Span) : Prop where
  lt : w.start < es
  start : isWhitespace (m w.start) = false
  token : tokenAt m es w.start = (byte 'a', w.stop)

section Tokens
variable {m : Mem} {s₀ s es : ℕ} {w : Span} {c : Byte}

theorem Word.inWord_start (h : Word m es w) : inWord (m w.start) = true ∧ w.stop = scan inWord m es w.start := by
  have hc := tokenAt_cases m es w.start
  rw [h.token] at hc
  generalize hstop : w.stop = e at hc
  cases hc with
  | symbol _ _ _ _ _ ha _ => exact absurd rfl ha
  | word h0 hs =>
    have hws := h.start
    unfold isWhitespace at hws
    rw [inWord, hws, hs]
    exact ⟨rfl, rfl⟩

theorem Word.start_lt (h : Word m es w) : w.start < w.stop := by
  rw [h.inWord_start.2]
  exact lt_scan h.lt h.inWord_start.1

theorem Word.stop_le (h : Word m es w) : w.stop ≤ es := by
  rw [h.inWord_start.2]
  exact scan_le h.lt.le

theorem Word.inside (h : Word m es w) {i : ℕ} (h1 : w.start ≤ i) (h2 : i < w.stop) : inWord (m i) = true := by
  rw [h.inWord_start.2] at h2
  exact scan_before h1 h2

theorem Word.outside (h : Word m es w) (hlt : w.stop < es) : inWord (m w.stop) = false := by
  rw [h.inWord_start.2] at hlt ⊢
  exact scan_at h.lt.le hlt

/-! ## The cursor -/

def Next (m : Mem) (s : ℕ) : Prop := m s ≠ 0 ∧ isWhitespace (m s) = false

variable (hl : Line m s₀ es)
include hl

theorem Line.lt_of_ne (hs : s ≤ es) (h0 : m s ≠ 0) : s < es := by
  refine lt_of_le_of_ne hs ?_
  rintro rfl
  exact h0 hl.nul

theorem peek_wp (toks : List Byte) (hs : s ≤ es) :
    wp (peek m es toks) (fun b s' => s ≤ s' ∧ s' ≤ es ∧ (b = true → Next m s')) (· ≠ "fuel") s := by
  simp only [peek, wp_bind, wp_get, wp_set, wp_pure]
  refine ⟨le_scan, scan_le hs, fun hb => ?_⟩
  simp only [Bool.and_eq_true, decide_eq_true_eq] at hb
  exact ⟨hb.1, scan_at hs (hl.lt_of_ne (scan_le hs) hb.1)⟩

/-- What a token is and how far the cursor goes. -/
structure Read (m : Mem) (es s : ℕ) (t : Token) (s' : ℕ) : Prop where
  le : s ≤ s'
  le_es : s' ≤ es
  lt : Next m s ∨ t.tok ≠ 0 → s < s'
  word : t.tok = byte 'a' → Word m es t.span ∧ s ≤ t.span.start

theorem gettoken_wp (hs : s ≤ es) : wp (gettoken m es) (Read m es s) (· ≠ "fuel") s := by
  simp only [gettoken, wp_bind, wp_get, wp_set, wp_pure]
  have hq : scan isWhitespace m es s ≤ es := scan_le hs
  have hle : s ≤ scan isWhitespace m es s := le_scan
  have hnext : Next m s → m (scan isWhitespace m es s) ≠ 0 := by
    rintro ⟨h0, hw⟩
    rwa [scan_eq_self hw]
  have hc := tokenAt_cases m es (scan isWhitespace m es s)
  have hword : ∀ e, tokenAt m es (scan isWhitespace m es s) = (byte 'a', e) → m (scan isWhitespace m es s) ≠ 0 →
      Word m es ⟨scan isWhitespace m es s, e⟩ := fun e he h0 =>
    ⟨hl.lt_of_ne hq h0, scan_at hs (hl.lt_of_ne hq h0), he⟩
  revert hc hword
  generalize scan isWhitespace m es s = q at *
  generalize tokenAt m es q = t
  intro hc hword
  cases hc with
  | nul h =>
    refine ⟨hle.trans le_scan, scan_le hq, fun h0 => ?_, fun ha => absurd (show (0 : Byte) = byte 'a' from ha) (by decide)⟩
    rcases h0 with h0 | h0
    · exact absurd h (hnext h0)
    · exact absurd rfl h0
  | symbol tok e h0 _ ht ha he =>
    have hlt := hl.lt_of_ne hq h0
    have hes : e ≤ es := by
      rcases he with rfl | ⟨h1, rfl⟩
      · exact hlt
      · exact hl.lt_of_ne hlt h1
    have hqe : q < e := by omega
    refine ⟨(hle.trans hqe.le).trans le_scan, scan_le hes, fun _ => ?_, fun h => absurd h ha⟩
    exact (hle.trans_lt hqe).trans_le le_scan
  | word h0 _ =>
    have hw := hword _ rfl h0
    refine ⟨(hle.trans hw.start_lt.le).trans le_scan, scan_le hw.stop_le, fun _ => ?_, fun _ => ⟨hw, hle⟩⟩
    exact (hle.trans_lt hw.start_lt).trans_le le_scan

end Tokens

/-! ## The words of a tree -/

/-- Every word of the tree is one of the line, from `s₀` on. -/
def Cmd.From (m : Mem) (es s₀ : ℕ) (c : Cmd Span) : Prop := ∀ w ∈ c.words, Word m es w ∧ s₀ ≤ w.start

def RedirsFrom (m : Mem) (es s₀ : ℕ) (rs : List Redir) : Prop := ∀ r ∈ rs, Word m es r.file ∧ s₀ ≤ r.file.start

section Grammar
variable {m : Mem} {s₀ s es : ℕ} {rs : List Redir}

theorem Cmd.From.wrap {c : Cmd Span} (hr : RedirsFrom m es s₀ rs) (hc : c.From m es s₀) : (wrap rs c).From m es s₀ := by
  induction rs generalizing c with
  | nil => exact hc
  | cons r rs ih =>
    refine ih (fun r' hr' => hr r' (List.mem_cons_of_mem _ hr')) fun w hw => ?_
    rcases List.mem_append.mp hw with hw | hw
    · exact hc w hw
    · rw [List.mem_singleton.mp hw]
      exact hr r List.mem_cons_self

theorem RedirsFrom.append (hr : RedirsFrom m es s₀ rs) {w : Span} (hw : Word m es w ∧ s₀ ≤ w.start) (tok : Byte) :
    RedirsFrom m es s₀ (rs ++ redirFor tok w) := by
  intro r h
  rcases List.mem_append.mp h with h | h
  · exact hr r h
  · have : r.file = w := by
      unfold redirFor at h
      split_ifs at h <;> simp at h <;> rw [h]
    rwa [this]

def Ahead (es s s' : ℕ) : Prop := s ≤ s' ∧ s' ≤ es

variable (hl : Line m s₀ es)
include hl

theorem redirLoop_wp {turns : ℕ} (h0 : s₀ ≤ s) (hs : s ≤ es) (ht : es - s < turns) (hr : RedirsFrom m es s₀ rs) :
    wp (redirLoop m es turns rs) (fun rs' s' => RedirsFrom m es s₀ rs' ∧ Ahead es s s') (· ≠ "fuel") s := by
  induction turns generalizing rs s with
  | zero => exact absurd ht (Nat.not_lt_zero _)
  | succ turns ih =>
    rw [redirLoop]
    refine (peek_wp hl _ hs).bind fun b s₁ ⟨h1, h1', hn⟩ => ?_
    cases b with
    | false => exact ⟨hr, h1, h1'⟩
    | true =>
      refine (gettoken_wp hl h1').bind fun t s₂ r₂ => ?_
      refine (gettoken_wp hl r₂.le_es).bind fun file s₃ r₃ => ?_
      have hlt := r₂.lt (.inl (hn rfl))
      have hle := r₃.le
      have hes := r₃.le_es
      split
      · exact fun h => absurd h (by decide)
      · rename_i ha
        obtain ⟨hw, hws⟩ := r₃.word (not_not.mp ha)
        refine (ih (by omega) hes (by omega) (hr.append ⟨hw, by omega⟩ _)).mono ?_
        exact fun rs' s' h => ⟨h.1, by have := h.2.1; omega, h.2.2⟩

theorem parseredirs_wp (h0 : s₀ ≤ s) (hs : s ≤ es) (hr : RedirsFrom m es s₀ rs) :
    wp (parseredirs m es rs) (fun rs' s' => RedirsFrom m es s₀ rs' ∧ Ahead es s s') (· ≠ "fuel") s := by
  rw [parseredirs, wp_bind, wp_get]
  exact redirLoop_wp hl h0 hs (Nat.lt_succ_self _) hr

theorem argLoop_wp {turns : ℕ} {argv : List Span} {ret : List Redir} (h0 : s₀ ≤ s) (hs : s ≤ es) (ht : es - s < turns)
    (ha : Cmd.From m es s₀ (.exec argv)) (hr : RedirsFrom m es s₀ ret) :
    wp (argLoop m es turns argv ret) (fun c s' => c.From m es s₀ ∧ Ahead es s s') (· ≠ "fuel") s := by
  induction turns generalizing argv ret s with
  | zero => exact absurd ht (Nat.not_lt_zero _)
  | succ turns ih =>
    rw [argLoop]
    refine (peek_wp hl _ hs).bind fun b s₁ ⟨h1, h1', hn⟩ => ?_
    cases b with
    | true => exact ⟨ha.wrap hr, h1, h1'⟩
    | false =>
      refine (gettoken_wp hl h1').bind fun t s₂ r₂ => ?_
      have hle := r₂.le
      split
      · exact ⟨ha.wrap hr, by omega, r₂.le_es⟩
      · rename_i htok
        have hlt := r₂.lt (.inr htok)
        split
        · exact fun h => absurd h (by decide)
        · rename_i hword
          obtain ⟨hw, hws⟩ := r₂.word (not_not.mp hword)
          split
          · exact fun h => absurd h (by decide)
          · refine (parseredirs_wp hl (by omega) r₂.le_es hr).bind fun ret' s₃ ⟨hr', h3, h3'⟩ => ?_
            have ha' : Cmd.From m es s₀ (.exec (argv ++ [t.span])) := by
              intro w hm
              rcases List.mem_append.mp hm with hm | hm
              · exact ha w hm
              · rw [List.mem_singleton.mp hm]
                exact ⟨hw, by omega⟩
            refine (ih (by omega) h3' (by omega) ha' hr').mono ?_
            exact fun c s' h => ⟨h.1, by have := h.2.1; omega, h.2.2⟩

theorem backLoop_wp {turns : ℕ} {c : Cmd Span} (hs : s ≤ es) (ht : es - s < turns) (hc : c.From m es s₀) :
    wp (backLoop m es turns c) (fun c s' => c.From m es s₀ ∧ Ahead es s s') (· ≠ "fuel") s := by
  induction turns generalizing c s with
  | zero => exact absurd ht (Nat.not_lt_zero _)
  | succ turns ih =>
    rw [backLoop]
    refine (peek_wp hl _ hs).bind fun b s₁ ⟨h1, h1', hn⟩ => ?_
    cases b with
    | false => exact ⟨hc, h1, h1'⟩
    | true =>
      refine (gettoken_wp hl h1').bind fun t s₂ r₂ => ?_
      have hlt := r₂.lt (.inl (hn rfl))
      have hes := r₂.le_es
      have hback : Cmd.From m es s₀ (.back c) := hc
      refine (ih hes (by omega) hback).mono ?_
      exact fun c s' h => ⟨h.1, by have := h.2.1; omega, h.2.2⟩

/-- What the four procedures do when `depth` is enough for what is left of the line. -/
structure Parses (m : Mem) (es s₀ depth s : ℕ) : Prop where
  line : 4 * (es - s) + 4 ≤ depth →
    wp (parseline m es depth) (fun c s' => c.From m es s₀ ∧ Ahead es s s') (· ≠ "fuel") s
  pipe : 4 * (es - s) + 3 ≤ depth →
    wp (parsepipe m es depth) (fun c s' => c.From m es s₀ ∧ Ahead es s s') (· ≠ "fuel") s
  exec : 4 * (es - s) + 2 ≤ depth →
    wp (parseexec m es depth) (fun c s' => c.From m es s₀ ∧ Ahead es s s') (· ≠ "fuel") s
  block : 4 * (es - s) + 1 ≤ depth →
    wp (parseblock m es depth) (fun c s' => c.From m es s₀ ∧ Ahead es s s') (· ≠ "fuel") s

theorem parses (depth s : ℕ) (h0 : s₀ ≤ s) (hs : s ≤ es) : Parses m es s₀ depth s := by
  induction depth generalizing s with
  | zero => exact ⟨fun h => absurd h (by omega), fun h => absurd h (by omega), fun h => absurd h (by omega),
      fun h => absurd h (by omega)⟩
  | succ depth ih =>
    refine ⟨fun hd => ?_, fun hd => ?_, fun hd => ?_, fun hd => ?_⟩
    · rw [parseline]
      refine ((ih s h0 hs).pipe (by omega)).bind fun c s₁ ⟨hc, h1, h1'⟩ => ?_
      rw [wp_bind, wp_get]
      refine (backLoop_wp hl h1' (Nat.lt_succ_self _) hc).bind fun c s₂ ⟨hc, h2, h2'⟩ => ?_
      refine (peek_wp hl _ h2').bind fun b s₃ ⟨h3, h3', hn⟩ => ?_
      cases b with
      | false => exact ⟨hc, by omega, h3'⟩
      | true =>
        refine (gettoken_wp hl h3').bind fun t s₄ r₄ => ?_
        have hlt := r₄.lt (.inl (hn rfl))
        have hes := r₄.le_es
        refine ((ih s₄ (by omega) hes).line (by omega)).bind fun right s₅ ⟨hr, h5, h5'⟩ => ?_
        refine ⟨fun w hw => ?_, by omega, h5'⟩
        exact (List.mem_append.mp hw).elim (hc w) (hr w)
    · rw [parsepipe]
      refine ((ih s h0 hs).exec (by omega)).bind fun c s₁ ⟨hc, h1, h1'⟩ => ?_
      refine (peek_wp hl _ h1').bind fun b s₂ ⟨h2, h2', hn⟩ => ?_
      cases b with
      | false => exact ⟨hc, by omega, h2'⟩
      | true =>
        refine (gettoken_wp hl h2').bind fun t s₃ r₃ => ?_
        have hlt := r₃.lt (.inl (hn rfl))
        have hes := r₃.le_es
        refine ((ih s₃ (by omega) hes).pipe (by omega)).bind fun right s₄ ⟨hr, h4, h4'⟩ => ?_
        refine ⟨fun w hw => ?_, by omega, h4'⟩
        exact (List.mem_append.mp hw).elim (hc w) (hr w)
    · rw [parseexec]
      refine (peek_wp hl _ hs).bind fun b s₁ ⟨h1, h1', hn⟩ => ?_
      cases b with
      | true =>
        refine ((ih s₁ (by omega) h1').block (by omega)).mono ?_
        exact fun c s' h => ⟨h.1, by have := h.2.1; omega, h.2.2⟩
      | false =>
        refine (parseredirs_wp hl (by omega) h1' (by simp [RedirsFrom])).bind fun ret s₂ ⟨hr, h2, h2'⟩ => ?_
        rw [wp_bind, wp_get]
        refine (argLoop_wp hl (by omega) h2' (Nat.lt_succ_self _) (by simp [Cmd.From, Cmd.words]) hr).mono ?_
        exact fun c s' h => ⟨h.1, by have := h.2.1; omega, h.2.2⟩
    · rw [parseblock]
      refine (peek_wp hl _ hs).bind fun b s₁ ⟨h1, h1', hn⟩ => ?_
      cases b with
      | false => exact fun h => absurd h (by decide)
      | true =>
        refine (gettoken_wp hl h1').bind fun t s₂ r₂ => ?_
        have hlt := r₂.lt (.inl (hn rfl))
        have hes := r₂.le_es
        refine ((ih s₂ (by omega) hes).line (by omega)).bind fun c s₃ ⟨hc, h3, h3'⟩ => ?_
        refine (peek_wp hl _ h3').bind fun b s₄ ⟨h4, h4', _⟩ => ?_
        cases b with
        | false => exact fun h => absurd h (by decide)
        | true =>
          refine (gettoken_wp hl h4').bind fun t s₅ r₅ => ?_
          have hle := r₅.le
          refine (parseredirs_wp hl (by omega) r₅.le_es (by simp [RedirsFrom])).bind fun rs s₆ ⟨hr, h6, h6'⟩ => ?_
          exact ⟨hc.wrap hr, by omega, h6'⟩

end Grammar

/-! ## The words in memory -/

def slice (m : Mem) (w : Span) : List Byte := (List.range (w.stop - w.start)).map fun i => m (w.start + i)

/-- The C string at `s`, of which at most `n` bytes are looked at. -/
def cstring (m : Mem) : ℕ → ℕ → List Byte
  | 0, _ => []
  | n + 1, s => if m s = 0 then [] else m s :: cstring m n (s + 1)

section Memory
variable {m m' : Mem} {s₀ es : ℕ} {c : Cmd Span} {w : Span}

theorem foldl_terminate (argv : List Span) (m : Mem) (i : ℕ) :
    argv.foldl (fun m w => update m w.stop 0) m i = if ∃ w ∈ argv, w.stop = i then 0 else m i := by
  induction argv generalizing m with
  | nil => simp
  | cons w argv ih =>
    rw [List.foldl_cons, ih, update_apply]
    by_cases h : i = w.stop
    · simp [h]
    · simp [h, Ne.symm h]

theorem nulterminate_eq (c : Cmd Span) (m : Mem) :
    nulterminate c m = c.words.foldl (fun m w => update m w.stop 0) m := by
  induction c generalizing m with
  | exec argv => rfl
  | redir cmd file _ _ ih => rw [nulterminate, ih, Cmd.words, List.foldl_append, List.foldl_cons, List.foldl_nil]
  | pipe l r ihl ihr => rw [nulterminate, ihl, ihr, Cmd.words, List.foldl_append]
  | list l r ihl ihr => rw [nulterminate, ihl, ihr, Cmd.words, List.foldl_append]
  | back c ih => rw [nulterminate, ih, Cmd.words]

/-- `nulterminate` writes where words end, and nowhere else. -/
theorem nulterminate_apply (c : Cmd Span) (m : Mem) (i : ℕ) :
    nulterminate c m i = if ∃ w ∈ c.words, w.stop = i then 0 else m i := by
  rw [nulterminate_eq, foldl_terminate]

theorem cstring_eq {k n s : ℕ} (hk : k ≤ n) (h0 : ∀ i < k, m (s + i) ≠ 0) (hn : k < n → m (s + k) = 0) :
    cstring m n s = (List.range k).map fun i => m (s + i) := by
  induction k generalizing n s with
  | zero =>
    cases n with
    | zero => rfl
    | succ n =>
      have h : m s = 0 := hn (Nat.zero_lt_succ n)
      rw [cstring, if_pos h, List.range_zero, List.map_nil]
  | succ k ih =>
    obtain ⟨n, rfl⟩ : ∃ n', n = n' + 1 := ⟨n - 1, by omega⟩
    have hrest := ih (n := n) (s := s + 1) (by omega) (fun i hi => by
      have := h0 (i + 1) (by omega)
      rwa [← Nat.add_assoc, Nat.add_right_comm] at this) fun hlt => by
      have := hn (by omega)
      rwa [← Nat.add_assoc, Nat.add_right_comm] at this
    have hne : m s ≠ 0 := h0 0 (Nat.zero_lt_succ k)
    rw [cstring, if_neg hne, hrest, List.range_succ_eq_map, List.map_cons, List.map_map]
    congr 1
    refine List.map_congr_left fun i _ => ?_
    rw [Function.comp_apply, Nat.succ_eq_add_one]
    congr 1
    omega

variable (hc : c.From m es s₀)
include hc

theorem nulterminate_inside (hw : Word m es w) {i : ℕ} (h1 : w.start ≤ i) (h2 : i < w.stop) :
    nulterminate c m i = m i := by
  rw [nulterminate_apply, if_neg]
  rintro ⟨w', hm, rfl⟩
  have hlt : w'.stop < es := h2.trans_le hw.stop_le
  have := (hc w' hm).1.outside hlt
  rw [hw.inside h1 h2] at this
  cases this

theorem cstring_nulterminate (hl : Line m s₀ es) (hw : w ∈ c.words) : cstring (nulterminate c m) (es + 1 - w.start) w.start =
    slice m w := by
  obtain ⟨hword, hle⟩ := hc w hw
  have hin : ∀ i < w.stop - w.start, nulterminate c m (w.start + i) = m (w.start + i) := fun i hi =>
    nulterminate_inside hc hword (Nat.le_add_right _ _) (by omega)
  have hstop := hword.stop_le
  have hlt := hword.start_lt
  rw [cstring_eq (k := w.stop - w.start) (by omega)]
  · exact List.map_congr_left fun i hi => hin i (List.mem_range.mp hi)
  · intro i hi
    rw [hin i hi]
    exact hl.nonzero _ (by omega) (by omega)
  · intro _
    rw [Nat.add_sub_of_le hlt.le, nulterminate_apply, if_pos ⟨w, hw, rfl⟩]

theorem nulterminate_frame {i : ℕ} (hi : i < s₀ ∨ es < i) : nulterminate c m i = m i := by
  rw [nulterminate_apply, if_neg]
  rintro ⟨w, hm, rfl⟩
  obtain ⟨hword, hle⟩ := hc w hm
  have hstop := hword.stop_le
  have hlt := hword.start_lt
  omega

end Memory

/-! ## `parsecmd` -/

variable {m m' : Mem} {s es : ℕ} {c : Cmd Span}

theorem parsecmd_eq {s' : ℕ} (h : parseline m es (4 * (es - s) + 4) s = .ok (c, s')) :
    parsecmd m es s = if scan isWhitespace m es s' ≠ es then .error "syntax" else .ok (c, nulterminate c m) := by
  rw [parsecmd, h]
  rfl

theorem parsecmd_ok (h : parsecmd m es s = .ok (c, m')) :
    ∃ s', parseline m es (4 * (es - s) + 4) s = .ok (c, s') ∧ m' = nulterminate c m := by
  cases hline : parseline m es (4 * (es - s) + 4) s with
  | error e =>
    rw [parsecmd, hline] at h
    cases h
  | ok r =>
    obtain ⟨c₁, s₁⟩ := r
    rw [parsecmd_eq hline] at h
    split at h
    · cases h
    · cases h
      exact ⟨s₁, rfl, rfl⟩

/-- The parser always comes to an end. -/
theorem parsecmd_terminates (hl : Line m s es) : parsecmd m es s ≠ .error "fuel" := by
  have hwp := (parses hl _ s le_rfl hl.le).line le_rfl
  cases hline : parseline m es (4 * (es - s) + 4) s with
  | error e =>
    have he := hwp.of_error hline
    rw [parsecmd, hline]
    exact fun h => he (Except.error.inj h)
  | ok r =>
    obtain ⟨c₁, s₁⟩ := r
    rw [parsecmd_eq hline]
    split
    · exact fun h => absurd (Except.error.inj h) (by decide)
    · exact fun h => by cases h

/-- **Terminating the words in place is safe.** Each word of the tree is a token of the line, and reads as the
text of that token after all the terminators are written. Nothing outside the line is written. -/
theorem parsecmd_words_intact (m : Mem) (s es : ℕ) (hl : Line m s es) (c : Cmd Span) (m' : Mem)
    (h : parsecmd m es s = .ok (c, m')) :
    (∀ w ∈ c.words, s ≤ w.start ∧ Word m es w ∧ cstring m' (es + 1 - w.start) w.start = slice m w) ∧
    ∀ i, i < s ∨ es < i → m' i = m i := by
  obtain ⟨s', hline, rfl⟩ := parsecmd_ok h
  have hc := (((parses hl _ s le_rfl hl.le).line le_rfl).of_ok hline).1
  exact ⟨fun w hw => ⟨(hc w hw).2, (hc w hw).1, cstring_nulterminate hc hl hw⟩, fun i hi => nulterminate_frame hc hi⟩

/-- `a>b|c` at address 100. -/
def tightLine : Mem := fun i => if i < 100 then 0 else (['a', '>', 'b', '|', 'c'].map byte).getD (i - 100) 0

theorem tightLine_line : Line tightLine 100 105 := by
  have h : ∀ k < 5, tightLine (100 + k) ≠ 0 := by decide +kernel
  refine ⟨by omega, fun i h1 h2 => ?_, by decide +kernel⟩
  obtain ⟨k, rfl⟩ := Nat.exists_eq_add_of_le h1
  exact h k (by omega)

def tightTree : Cmd Span :=
  .pipe (.redir (.exec [⟨100, 101⟩]) ⟨102, 103⟩ (O_WRONLY ||| O_CREATE ||| O_TRUNC) 1) (.exec [⟨104, 105⟩])

theorem tightLine_parses : parseline tightLine 105 (4 * (105 - 100) + 4) 100 = .ok (tightTree, 105) := by
  decide +kernel

theorem tightLine_intact : parsecmd tightLine 105 100 = .ok (tightTree, nulterminate tightTree tightLine) ∧
    (∀ w ∈ tightTree.words, 100 ≤ w.start ∧ Word tightLine 105 w ∧
      cstring (nulterminate tightTree tightLine) (106 - w.start) w.start = slice tightLine w) ∧
    ∀ i, i < 100 ∨ 105 < i → nulterminate tightTree tightLine i = tightLine i := by
  have hparse : parsecmd tightLine 105 100 = .ok (tightTree, nulterminate tightTree tightLine) := by
    rw [parsecmd_eq tightLine_parses, if_neg (by decide +kernel)]
  exact ⟨hparse, parsecmd_words_intact tightLine 100 105 tightLine_line _ _ hparse⟩

end Xv6Boot.User.Sh
