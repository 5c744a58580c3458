import Xv6Boot.Kernel.FsDirSpec

/-! # Paths

`namex` follows the entries of directories. On the way it takes and drops references, and dropping one frees an inode
without links that nobody else holds. Where the entries name allocated inodes and every inode without links is held,
the file system does not change and the result is that of `resolve`, which only looks at the nodes.
-/

namespace Xv6Boot.Kernel.Fs
open Program

variable {sb : Superblock} {F : Set ℕ} {s s₁ s₂ s' : State} {ip jp dp cwd : Ip} {l l' : List Ip} {n m j : ℕ}
  {E : String → Prop} {x : Node} {N N' : ℕ → Node}

/-! ## Inodes that are held -/

/-- Inode `n` is held through the table. -/
def State.Holds (s : State) (n : ℕ) : Prop := ∃ jp, 0 < (s.inode jp).ref ∧ (s.inode jp).inum = n

theorem Over.holds (h : Over s s' l) (hn : s.Holds n) : s'.Holds n := by
  obtain ⟨jp, hr, rfl⟩ := hn
  exact ⟨jp, h.ref_pos hr, h.inum jp hr⟩

/-! ## Steps of a walk -/

def Pruned (sb : Superblock) (s s' : State) : Prop := ∀ n, nodes sb s'.cache n = nodes sb s.cache n ∨
  (nodes sb s'.cache n = Node.free ∧ (nodes sb s.cache n).nlink = 0 ∧ ¬ s.Holds n)

/-- A walk from `s` that has come to `s'` and holds what is in `l`. -/
structure Walked (sb : Superblock) (F : Set ℕ) (s s' : State) (l : List Ip) : Prop where
  good : Good sb F s'
  above : Over s s' l
  pruned : Pruned sb s s'

theorem Pruned.of_cache (h : s'.cache = s.cache) : Pruned sb s s' := fun _ => Or.inl (by rw [h])

theorem Pruned.trans {s'' : State} (h : Pruned sb s s') (ho : Over s s' l) (h' : Pruned sb s' s'') :
    Pruned sb s s'' := by
  intro n
  rcases h' n with he' | ⟨hf, hz, hn⟩
  · rw [he']
    exact h n
  · rcases h n with he | ⟨_, hz', hn'⟩
    · exact Or.inr ⟨hf, he ▸ hz, fun hh => hn (ho.holds hh)⟩
    · exact Or.inr ⟨hf, hz', hn'⟩

namespace Walked

theorem refl (hg : Good sb F s) : Walked sb F s s [] := ⟨hg, Over.refl s, Pruned.of_cache rfl⟩

theorem trans {s'' : State} (h : Walked sb F s s' l) (h' : Walked sb F s' s'' l') : Walked sb F s s'' (l' ++ l) :=
  ⟨h'.good, h.above.trans h'.above, h.pruned.trans h.above h'.pruned⟩

theorem ref_pos (h : Walked sb F s s' (ip :: l)) (hg : Good sb F s) : 0 < (s'.inode ip).ref := by
  have h0 := hg.nonneg ip
  have h1 := h.above.ref ip
  rw [List.count_cons_self] at h1
  omega

theorem took (h : Walked sb F s s₁ l) (hg : Good sb F s₂) (hc : s₂.cache = s₁.cache) (ht : Took s₁ s₂ ip n) :
    Walked sb F s s₂ (ip :: l) := h.trans ⟨hg, Over.of_took ht, Pruned.of_cache hc⟩

theorem locked (h : Walked sb F s s₁ l) (hg : Good sb F s₂) (hk : Locked s₁ s₂ ip) : Walked sb F s s₂ l :=
  h.trans ⟨hg, Over.of_locked hk, Pruned.of_cache hk.cache⟩

theorem perm (h : Walked sb F s s' l) (hl : l.Perm l') : Walked sb F s s' l' := ⟨h.good, h.above.perm hl, h.pruned⟩

theorem not_holds (hg : Good sb F s) (h : Walked sb F s s' (ip :: l)) (h1 : (s'.inode ip).ref = 1) :
    ¬ s.Holds (s'.inode ip).inum := by
  rintro ⟨jp, hjr, hji⟩
  have hj : jp = ip :=
    h.good.distinct jp ip (h.above.ref_pos hjr) (h.ref_pos hg) ((h.above.inum jp hjr).trans hji)
  subst hj
  have hr := h.above.ref jp
  rw [List.count_cons_self, h1] at hr
  omega

theorem put (hl : Layout sb) (hg : Good sb F s) (h : Walked sb F s s₁ (ip :: l)) :
    wp (iput sb ip) (fun _ s' => Walked sb F s s' l ∧ Dropped s₁ s' ip ∧
      ((nodes sb s₁.cache (s₁.inode ip).inum).nlink ≠ 0 ∨ s.Holds (s₁.inode ip).inum →
        nodes sb s'.cache = nodes sb s₁.cache)) E s₁ := by
  refine (iput_good hl h.good (h.ref_pos hg)).mono
    fun _ s₂ ⟨hg₂, hdrop, hnodes⟩ => ⟨⟨hg₂, h.above.drop hdrop, fun n => ?_⟩, hdrop, fun hstay => ?_⟩
  · rw [hnodes]
    split
    · next hcond =>
      by_cases hn : n = (s₁.inode ip).inum
      · subst hn
        rw [Function.update_self]
        rcases h.pruned (s₁.inode ip).inum with he | ⟨_, hz, hh⟩
        · exact Or.inr ⟨rfl, he ▸ hcond.2.2, h.not_holds hg hcond.1⟩
        · exact Or.inr ⟨rfl, hz, hh⟩
      · rw [Function.update_of_ne hn]
        exact h.pruned n
    · exact h.pruned n
  · rw [hnodes, if_neg]
    rintro ⟨h1, _, hz⟩
    rcases hstay with hne | hh
    · exact hne hz
    · exact h.not_holds hg h1 hh

theorem unlockput (hl : Layout sb) (hg : Good sb F s) (h : Walked sb F s s₁ (ip :: l)) :
    wp (iunlockput sb ip) (fun _ s' => Walked sb F s s' l ∧ Dropped s₁ s' ip ∧
      ((nodes sb s₁.cache (s₁.inode ip).inum).nlink ≠ 0 ∨ s.Holds (s₁.inode ip).inum →
        nodes sb s'.cache = nodes sb s₁.cache)) E s₁ := by
  refine (iunlock_wp (h.ref_pos hg)).bind ?_
  rintro _ _ rfl
  exact h.put hl hg

end Walked

/-! ## `namex` -/

def resolve (N : ℕ → Node) (nameiparent : Bool) : ℕ → List Byte → ℕ → Name → Option (ℕ × Name)
  | 0, _, _, _ => none
  | fuel + 1, path, n, name =>
    match skipelem path with
    | none => if nameiparent then none else some (n, name)
    | some (rest, elem) =>
      if (N n).type ≠ T_DIR then none
      else if nameiparent = true ∧ rest = [] then some (n, elem)
      else
        match (N n).find elem with
        | none => none
        | some j => resolve N nameiparent fuel rest ((N n).dirent j).inum.toNat elem

theorem ne_slash_of_dropWhile {path t : List Byte} {c : Byte} (h : path.dropWhile (fun c => decide (c = slash)) = c :: t) :
    c ≠ slash := by
  have hnot := List.head?_dropWhile_not (fun c => decide (c = slash)) path
  rw [h] at hnot
  simpa using hnot

theorem skipelem_length {path rest : List Byte} {elem : Name} (h : skipelem path = some (rest, elem)) :
    rest.length < path.length := by
  unfold skipelem at h
  have hle := (List.dropWhile_sublist (l := path) (fun c => decide (c = slash))).length_le
  cases hp : path.dropWhile (fun c => decide (c = slash)) with
  | nil => simp only [hp] at h; cases h
  | cons c t =>
    simp only [hp, Option.some.injEq, Prod.mk.injEq] at h
    obtain ⟨rfl, _⟩ := h
    have h1 := (List.dropWhile_sublist (l := t.dropWhile (fun c => decide (c ≠ slash)))
      (fun c => decide (c = slash))).length_le
    have h2 := (List.dropWhile_sublist (l := t) (fun c => decide (c ≠ slash))).length_le
    rw [hp, List.length_cons] at hle
    rw [List.dropWhile_cons_of_pos (by simpa using ne_slash_of_dropWhile hp)]
    omega

/-- Inode `n` is allocated, and a reference that comes and goes does not free it. -/
def Stays (sb : Superblock) (s : State) (n : ℕ) : Prop :=
  (nodes sb s.cache n).type ≠ 0 ∧ ((nodes sb s.cache n).nlink ≠ 0 ∨ s.Holds n)

/-- The root, the current directory and the entries of all directories lead to inodes that stay. -/
structure Tree (sb : Superblock) (s : State) (cwd : Ip) : Prop where
  root : Stays sb s ROOTINO
  cwd : Stays sb s (s.inode cwd).inum
  entry : ∀ n j, (nodes sb s.cache n).type = T_DIR → j < (nodes sb s.cache n).entries →
    ((nodes sb s.cache n).dirent j).inum ≠ 0 → Stays sb s ((nodes sb s.cache n).dirent j).inum.toNat

def Rows (sb : Superblock) (N : ℕ → Node) : Prop :=
  ∀ n, (N n).type = T_DIR → (N n).size % direntSize = 0 ∧ ∀ j < (N n).entries, ((N n).dirent j).inum.toNat < sb.ninodes

theorem Pruned.rows (h : Pruned sb s s') (hd : Rows sb (nodes sb s.cache)) : Rows sb (nodes sb s'.cache) := by
  intro n hn
  rcases h n with he | ⟨hf, _⟩
  · rw [he] at hn ⊢
    exact hd n hn
  · rw [hf] at hn
    cases hn

def State.Scarce (s : State) : Prop := ∃ ip, ∀ jp, jp ≠ ip → (s.inode jp).ref ≠ 0

theorem State.Full.scarce (h : s.Full) (ip : Ip) : s.Scarce := ⟨ip, fun jp _ => h jp⟩

theorem Walked.scarce (h : Walked sb F s s' [ip]) (hf : s'.Full) : s.Scarce := by
  refine ⟨ip, fun jp hj => ?_⟩
  have hr := h.above.ref jp
  rw [List.count_singleton, if_neg (by simpa using hj.symm)] at hr
  have := hf jp
  omega

def WalkPost (sb : Superblock) (F : Set ℕ) (s : State) (cwd : Ip) (parent : Bool) (target : Option (ℕ × Name))
    (r : Option (Ip × Name)) (s' : State) : Prop :=
  match r with
  | none => Walked sb F s s' [] ∧ (Tree sb s cwd → target = none ∧ nodes sb s'.cache = nodes sb s.cache)
  | some (ip, name) => Walked sb F s s' [ip] ∧
      (parent = true → (s'.inode ip).valid = true ∧ (nodes sb s'.cache (s'.inode ip).inum).type = T_DIR) ∧
      (Tree sb s cwd → target = some ((s'.inode ip).inum, name) ∧ nodes sb s'.cache = nodes sb s.cache ∧
        Stays sb s (s'.inode ip).inum)

/-- The walk has come to `ip`. -/
def Reached (sb : Superblock) (s : State) (cwd : Ip) (s₁ : State) (ip : Ip) : Prop :=
  Tree sb s cwd → nodes sb s₁.cache = nodes sb s.cache ∧ Stays sb s (s₁.inode ip).inum

/-- The result only has to be the right one in a tree. -/
theorem WalkPost.congr {parent : Bool} {t t' : Option (ℕ × Name)} {r : Option (Ip × Name)} (ht : Tree sb s cwd → t' = t)
    (h : WalkPost sb F s cwd parent t r s') : WalkPost sb F s cwd parent t' r s' := by
  cases r with
  | none => exact ⟨h.1, fun hs => ht hs ▸ h.2 hs⟩
  | some r => exact ⟨h.1, h.2.1, fun hs => ht hs ▸ h.2.2 hs⟩

/-- An inode that is let go stays. -/
theorem Reached.keep {s₃ : State} (h : Reached sb s cwd s₁ ip) (hc : s₂.cache = s₁.cache)
    (hi : (s₂.inode ip).inum = (s₁.inode ip).inum)
    (hsame : (nodes sb s₂.cache (s₂.inode ip).inum).nlink ≠ 0 ∨ s.Holds (s₂.inode ip).inum →
      nodes sb s₃.cache = nodes sb s₂.cache) (hs : Tree sb s cwd) : nodes sb s₃.cache = nodes sb s.cache := by
  obtain ⟨hN, hstay⟩ := h hs
  rw [hc, hi, hN] at hsame
  exact hsame hstay.2

section Branches
variable (hl : Layout sb) (hg : Good sb F s) (h : Walked sb F s s₁ [ip]) (hn : Reached sb s cwd s₁ ip)
include hg h hn

theorem Reached.ilock (hE : ¬ Tree sb s cwd → E "ilock: no type") : wp (Fs.ilock sb ip) (fun _ s' =>
    Walked sb F s s' [ip] ∧ Reached sb s cwd s' ip ∧ Locked s₁ s' ip) E s₁ := by
  refine (ilock_wp h.good (h.ref_pos hg) fun hz => hE fun hs => ?_).mono
    fun _ s₂ ⟨hg₂, hlock, _⟩ => ⟨h.locked hg₂ hlock, ?_, hlock⟩
  · obtain ⟨hN, hstay⟩ := hn hs
    exact hstay.1 (hN ▸ hz)
  · rw [Reached, hlock.cache, hlock.inum ip]
    exact hn

include hl

/-- The walk ends at something that is not a directory or does not have the name. -/
theorem Reached.fails {parent : Bool} {t : Option (ℕ × Name)} (ht : Tree sb s cwd → t = none) : wp (do
      iunlockput sb ip
      return none) (WalkPost sb F s cwd parent t) E s₁ :=
  (h.unlockput hl hg).bind fun _ _ ⟨h₂, _, hsame⟩ => ⟨h₂, fun hs => ⟨ht hs, hn.keep rfl rfl hsame hs⟩⟩

/-- The walk goes on to the inode of entry `j`, and the directory is let go. -/
theorem Reached.next {name : Name} (htype : (nodes sb s₁.cache (s₁.inode ip).inum).type = T_DIR)
    (hx : (nodes sb s₁.cache (s₁.inode ip).inum).find name = some j) (hg₂ : Good sb F s₂) (hc : s₂.cache = s₁.cache)
    (htook : Took s₁ s₂ jp ((nodes sb s₁.cache (s₁.inode ip).inum).dirent j).inum.toNat) :
    wp (iunlockput sb ip) (fun _ s' => Walked sb F s s' [jp] ∧ Reached sb s cwd s' jp ∧
      (s'.inode jp).inum = ((nodes sb s₁.cache (s₁.inode ip).inum).dirent j).inum.toNat) E s₂ := by
  have h₂ := (h.took hg₂ hc htook).perm (List.Perm.swap ip jp [])
  have hip : (s₂.inode ip).inum = (s₁.inode ip).inum := htook.kept.inum ip (h.ref_pos hg) (h₂.ref_pos hg)
  refine (h₂.unlockput hl hg).mono fun _ s₃ ⟨h₃, hdrop, hsame⟩ => ?_
  have hjp : (s₃.inode jp).inum = ((nodes sb s₁.cache (s₁.inode ip).inum).dirent j).inum.toNat := by
    have hr : 0 < (s₂.inode jp).ref := (h₂.perm (List.Perm.swap jp ip [])).ref_pos hg
    rw [hdrop.kept.inum jp hr (h₃.ref_pos hg), htook.inum]
  refine ⟨h₃, fun hs => ⟨hn.keep hc hip hsame hs, ?_⟩, hjp⟩
  obtain ⟨hk, h0, _⟩ := Node.find_some hx
  obtain ⟨hN, _⟩ := hn hs
  rw [hjp, hN]
  rw [hN] at htype hk h0
  exact hs.entry _ j htype hk h0

end Branches

theorem namexLoop_wp (hl : Layout sb) (hg : Good sb F s) (hd : Rows sb (nodes sb s.cache))
    (hE : s.Scarce → E "iget: no inodes") (hE' : ¬ Tree sb s cwd → E "ilock: no type") (parent : Bool) (fuel : ℕ)
    (path : List Byte) (name : Name) (hfuel : path.length < fuel) (h : Walked sb F s s₁ [ip])
    (hn : Reached sb s cwd s₁ ip) :
    wp (namexLoop sb parent fuel path ip name)
      (WalkPost sb F s cwd parent (resolve (nodes sb s.cache) parent fuel path (s₁.inode ip).inum name)) E s₁ := by
  induction fuel generalizing s₁ ip path name with
  | zero => exact absurd hfuel (Nat.not_lt_zero _)
  | succ fuel ih =>
    rw [namexLoop, resolve]
    cases hskip : skipelem path with
    | none =>
      cases parent with
      | true =>
        refine (h.put hl hg).bind fun _ s₂ h₂ => ⟨h₂.1, fun hs => ⟨rfl, ?_⟩⟩
        obtain ⟨hN, hstay⟩ := hn hs
        rw [h₂.2.2 (hN ▸ hstay.2), hN]
      | false => exact ⟨h, nofun, fun hs => ⟨rfl, hn hs⟩⟩
    | some re =>
      obtain ⟨rest, elem⟩ := re
      have hlen := skipelem_length hskip
      simp only
      refine (hn.ilock hg h hE').bind fun _ s₂ ⟨h₂, hn₂, hlock⟩ => ?_
      have hg₂ := h₂.good
      rw [wp_bind, wp_get, (hg₂.copy_node (h₂.ref_pos hg) hlock.valid).1, ← hlock.inum ip]
      by_cases htype : (nodes sb s₂.cache (s₂.inode ip).inum).type = T_DIR
      · rw [if_neg (not_not.mpr htype)]
        by_cases hlast : parent = true ∧ rest = []
        · rw [if_pos hlast]
          refine (iunlock_wp (h₂.ref_pos hg)).bind ?_
          rintro _ _ rfl
          refine ⟨h₂, fun _ => ⟨hlock.valid, htype⟩, fun hs => ?_⟩
          obtain ⟨hN, hstay⟩ := hn₂ hs
          rw [← hN, if_neg (not_not.mpr htype), if_pos hlast]
          exact ⟨rfl, rfl, hstay⟩
        · rw [if_neg hlast]
          obtain ⟨hwhole, hlt⟩ := h₂.pruned.rows hd _ htype
          refine (dirlookup_wp hl hg₂ ⟨h₂.ref_pos hg, hlock.valid, rfl, htype, hwhole, hlt⟩ elem
            fun _ _ hf => hE (h₂.scarce hf.full)).bind fun r s₃ ⟨hg₃, hc, hfind⟩ => ?_
          cases hx : (nodes sb s₂.cache (s₂.inode ip).inum).find elem with
          | none =>
            simp only [hx] at hfind
            obtain ⟨rfl, rfl⟩ := hfind
            refine hn₂.fails hl hg h₂ fun hs => ?_
            rw [(hn₂ hs).1] at htype hx
            rw [if_neg (not_not.mpr htype), if_neg hlast, hx]
          | some k =>
            simp only [hx] at hfind
            obtain ⟨next, rfl, htook⟩ := hfind
            refine (hn₂.next hl hg h₂ htype hx hg₃ hc htook).bind fun _ s₄ ⟨h₄, hn₄, hnext⟩ =>
              (ih rest elem (by omega) h₄ hn₄).mono fun r s₅ => WalkPost.congr fun hs => ?_
            rw [(hn₂ hs).1] at htype hx hnext
            rw [if_neg (not_not.mpr htype), if_neg hlast, hx, hnext]
      · rw [if_pos htype]
        refine hn₂.fails hl hg h₂ fun hs => ?_
        rw [← (hn₂ hs).1, if_pos htype]

def pathStart (path : List Byte) (s : State) (cwd : Ip) : ℕ :=
  if path.head? = some slash then ROOTINO else (s.inode cwd).inum

def target (sb : Superblock) (s : State) (parent : Bool) (path : List Byte) (cwd : Ip) : Option (ℕ × Name) :=
  resolve (nodes sb s.cache) parent (path.length + 1) path (pathStart path s cwd) (literal [])

theorem namex_walk (hl : Layout sb) (hg : Good sb F s) (hd : Rows sb (nodes sb s.cache))
    (hcwd : 0 < (s.inode cwd).ref) (hE : s.Scarce → E "iget: no inodes") (hE' : ¬ Tree sb s cwd → E "ilock: no type")
    (path : List Byte) (parent : Bool) :
    wp (namex sb path parent cwd) (WalkPost sb F s cwd parent (target sb s parent path cwd)) E s := by
  -- both ways the walk starts with one reference
  have hgo : ∀ (ip : Ip) (s₁ : State), Good sb F s₁ → s₁.cache = s.cache → Took s s₁ ip (pathStart path s cwd) →
      (Tree sb s cwd → Stays sb s (pathStart path s cwd)) →
      wp (namexLoop sb parent (path.length + 1) path ip (literal []))
        (WalkPost sb F s cwd parent (target sb s parent path cwd)) E s₁ := by
    intro ip s₁ hg₁ hc htook hn
    have hreach : Reached sb s cwd s₁ ip := fun hs => ⟨by rw [hc], by rw [htook.inum]; exact hn hs⟩
    have h := namexLoop_wp hl hg hd hE hE' parent _ path (literal []) (Nat.lt_succ_self path.length)
      ((Walked.refl hg).took hg₁ hc htook) hreach
    rw [htook.inum] at h
    exact h
  rw [namex]
  by_cases hroot : path.head? = some slash
  · rw [if_pos hroot]
    have hstart : pathStart path s cwd = ROOTINO := if_pos hroot
    refine (iget_wp hg hl.root fun hf => hE (hf.full.scarce cwd)).bind
      fun ip s₁ ⟨hg₁, hc, htook⟩ => hgo ip s₁ hg₁ hc (hstart ▸ htook) fun hs => ?_
    rw [hstart]
    exact hs.root
  · rw [if_neg hroot]
    have hstart : pathStart path s cwd = (s.inode cwd).inum := if_neg hroot
    refine (idup_wp hg hcwd).bind ?_
    rintro _ s₁ ⟨rfl, hg₁, hc, htook⟩
    refine hgo _ s₁ hg₁ hc (hstart ▸ htook) fun hs => ?_
    rw [hstart]
    exact hs.cwd

end Xv6Boot.Kernel.Fs
