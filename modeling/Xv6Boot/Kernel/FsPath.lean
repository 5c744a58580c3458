import Xv6Boot.Kernel.DirMap

/-! # Paths as lists of names

A path is cut at its slashes; the empty parts go and the others are cut to `DIRSIZ` bytes. `namei` follows these names
through the maps of the directories, `nameiparent` all of them but the last. The code does it in one pass over the
string, with a buffer for the name that keeps what it held behind the end of a shorter one.
-/

namespace Xv6Boot.Kernel.Fs
open Program

variable {sb : Superblock} {F : Set ℕ} {s s' : State} {ip cwd : Ip} {n k : ℕ} {E : String → Prop} {N : ℕ → Node}
  {p q name : Name} {path rest : List Byte} {parent : Bool}

/-! ## The meaning of a path -/

def parts (path : List Byte) : List (List Byte) := (path.splitOn slash).filter (· ≠ [])

def components (path : List Byte) : List (List Byte) := (parts path).map (List.take DIRSIZ)

def follow (N : ℕ → Node) : ℕ → List (List Byte) → Option ℕ
  | n, [] => some n
  | n, c :: cs =>
    if (N n).type = T_DIR then
      match (N n).map c with
      | none => none
      | some m => follow N m cs
    else none

def followParent (N : ℕ → Node) (n : ℕ) (cs : List (List Byte)) : Option (ℕ × List Byte) :=
  match cs.getLast? with
  | none => none
  | some c =>
    match follow N n cs.dropLast with
    | none => none
    | some d => if (N d).type = T_DIR then some (d, c) else none

theorem parts_slash (path : List Byte) : parts (slash :: path) = parts path := by
  rw [parts, List.splitOn, List.splitOnP_cons_eq_if_modifyHead, if_pos (by simp),
    List.filter_cons_of_neg (by simp)]
  rfl

theorem parts_dropWhile (path : List Byte) : parts (path.dropWhile (· = slash)) = parts path := by
  induction path with
  | nil => rfl
  | cons c path ih =>
    by_cases hc : c = slash
    · rw [List.dropWhile_cons_of_pos (by simpa using hc), ih, hc, parts_slash]
    · rw [List.dropWhile_cons_of_neg (by simpa using hc)]

theorem parts_takeWhile (h : path.takeWhile (· ≠ slash) ≠ []) :
    parts path = path.takeWhile (· ≠ slash) :: parts (path.dropWhile (· ≠ slash)) := by
  have hfree : ∀ b ∈ path.takeWhile (· ≠ slash), (b == slash) = false := by
    intro b hb
    have := List.mem_takeWhile_imp hb
    simpa using this
  have happ := List.takeWhile_append_dropWhile (p := fun c => decide (c ≠ slash)) (l := path)
  cases hd : path.dropWhile (fun c => decide (c ≠ slash)) with
  | nil =>
    rw [hd, List.append_nil] at happ
    conv_lhs => rw [← happ]
    rw [parts, List.splitOn, List.splitOnP_eq_singleton hfree, List.filter_cons_of_pos (by simpa using h)]
    rfl
  | cons c t =>
    have hc : c = slash := by
      have hnot := List.head?_dropWhile_not (fun c => decide (c ≠ slash)) path
      rw [hd] at hnot
      simpa using hnot
    rw [hd] at happ
    conv_lhs => rw [← happ]
    rw [hc, parts_slash, parts, List.splitOn, List.splitOnP_append_cons_of_forall_mem hfree _ (by simp),
      List.filter_cons_of_pos (by simpa using h)]
    rfl

theorem cname_literal {l : List Byte} (hl : l.length ≤ n) (h0 : 0 ∉ l) : cname n (literal l) = l := by
  induction l generalizing n with
  | nil => cases n <;> rfl
  | cons b l ih =>
    cases n with
    | zero => exact absurd hl (Nat.not_succ_le_zero _)
    | succ n =>
      have hb : literal (b :: l) 0 = b := rfl
      have hrest : (fun i => literal (b :: l) (i + 1)) = literal l := rfl
      have hne : b ≠ 0 := fun h => h0 (h ▸ List.mem_cons_self)
      rw [cname, hb, if_neg hne, hrest, ih (Nat.le_of_succ_le_succ hl)
        fun h => h0 (List.mem_cons_of_mem _ h)]

theorem skipelem_none (h : skipelem path = none) : components path = [] := by
  unfold skipelem at h
  cases hp : path.dropWhile (fun c => decide (c = slash)) with
  | nil => rw [components, ← parts_dropWhile, hp]; rfl
  | cons c t => simp only [hp] at h; cases h

theorem takeWhile_ne_nil {c : Byte} {t : List Byte} (h : path.dropWhile (fun c => decide (c = slash)) = c :: t) :
    (c :: t).takeWhile (fun c => decide (c ≠ slash)) ≠ [] := by
  rw [List.takeWhile_cons_of_pos (by simpa using ne_slash_of_dropWhile h)]
  exact List.cons_ne_nil _ _

theorem skipelem_some {elem : Name} (h0 : 0 ∉ path) (h : skipelem path = some (rest, elem)) :
    components path = cname DIRSIZ elem :: components rest ∧ (rest = [] ↔ components rest = []) ∧ 0 ∉ rest := by
  unfold skipelem at h
  cases hp : path.dropWhile (fun c => decide (c = slash)) with
  | nil => simp only [hp] at h; cases h
  | cons c t =>
    simp only [hp, Option.some.injEq, Prod.mk.injEq] at h
    obtain ⟨rfl, rfl⟩ := h
    have hsub : ∀ b ∈ c :: t, b ∈ path := fun b hb => (List.dropWhile_sublist _).subset (hp ▸ hb)
    refine ⟨?_, ?_, fun h => h0 (hsub _ ?_)⟩
    · rw [components, ← parts_dropWhile, hp, parts_takeWhile (takeWhile_ne_nil hp), List.map_cons, components,
        parts_dropWhile,
        cname_literal (List.length_take_le _ _)]
      intro h
      exact h0 (hsub _ ((List.takeWhile_sublist _).subset (List.mem_of_mem_take h)))
    · refine ⟨fun h => by rw [h]; rfl, fun h => ?_⟩
      -- what is left has no slash in front
      cases hr : ((c :: t).dropWhile (fun c => decide (c ≠ slash))).dropWhile (fun c => decide (c = slash)) with
      | nil => rfl
      | cons b r =>
        rw [hr, components, parts_takeWhile (takeWhile_ne_nil hr)] at h
        cases h
    · exact (List.dropWhile_sublist _).subset ((List.dropWhile_sublist _).subset h)

theorem resolve_follow {fuel : ℕ} (h0 : 0 ∉ path) (hfuel : path.length < fuel) (n : ℕ) (name : Name) :
    (resolve N false fuel path n name).map Prod.fst = follow N n (components path) := by
  induction fuel generalizing path n name with
  | zero => exact absurd hfuel (Nat.not_lt_zero _)
  | succ fuel ih =>
    rw [resolve]
    cases hskip : skipelem path with
    | none =>
      rw [skipelem_none hskip]
      rfl
    | some re =>
      obtain ⟨rest, elem⟩ := re
      obtain ⟨hcs, _, h0'⟩ := skipelem_some h0 hskip
      have hlen := skipelem_length hskip
      simp only [Bool.false_eq_true, false_and, if_false]
      rw [hcs, follow, Node.map_find]
      by_cases ht : (N n).type = T_DIR
      · rw [if_neg (not_not.mpr ht), if_pos ht]
        cases (N n).find elem with
        | none => rfl
        | some j => exact ih h0' (by omega) _ _
      · rw [if_pos ht, if_neg ht]
        rfl

theorem followParent_cons {c : List Byte} {cs : List (List Byte)} (hcs : cs ≠ []) :
    followParent N n (c :: cs) = if (N n).type = T_DIR then
      match (N n).map c with
      | none => none
      | some m => followParent N m cs
    else none := by
  obtain ⟨b, hb⟩ : ∃ b, cs.getLast? = some b := ⟨_, List.getLast?_eq_some_getLast hcs⟩
  rw [followParent, List.getLast?_cons, hb, List.dropLast_cons_of_ne_nil hcs, follow]
  simp only [Option.getD_some]
  by_cases ht : (N n).type = T_DIR
  · rw [if_pos ht, if_pos ht]
    cases (N n).map c with
    | none => rfl
    | some m => simp only [followParent, hb]
  · rw [if_neg ht, if_neg ht]

theorem resolve_followParent {fuel : ℕ} (h0 : 0 ∉ path) (hfuel : path.length < fuel) (n : ℕ) (name : Name) :
    ((resolve N true fuel path n name).map fun r => (r.1, cname DIRSIZ r.2)) = followParent N n (components path) := by
  induction fuel generalizing path n name with
  | zero => exact absurd hfuel (Nat.not_lt_zero _)
  | succ fuel ih =>
    rw [resolve]
    cases hskip : skipelem path with
    | none =>
      rw [skipelem_none hskip]
      rfl
    | some re =>
      obtain ⟨rest, elem⟩ := re
      obtain ⟨hcs, hrest, h0'⟩ := skipelem_some h0 hskip
      have hlen := skipelem_length hskip
      simp only [true_and]
      rw [hcs]
      by_cases hr : rest = []
      · rw [hrest.mp hr]
        by_cases ht : (N n).type = T_DIR
        · rw [if_neg (not_not.mpr ht), if_pos hr]
          simp [followParent, follow, ht]
        · rw [if_pos ht]
          simp [followParent, follow, ht]
      · rw [if_neg hr, followParent_cons (fun h => hr (hrest.mpr h)), Node.map_find]
        by_cases ht : (N n).type = T_DIR
        · rw [if_neg (not_not.mpr ht), if_pos ht]
          cases (N n).find elem with
          | none => rfl
          | some j => exact ih h0' (by omega) _ _
        · rw [if_pos ht, if_neg ht]
          rfl

/-! ## The buffer for the name -/

namespace Buffered

/-- `memmove(name, s, ...)` and, for a short name, `name[len] = 0`. What the buffer holds behind that stays. -/
def putName (name : Name) (elem : List Byte) : Name :=
  if DIRSIZ ≤ elem.length then fun i => if i < DIRSIZ then elem.getD i 0 else name i
  else fun i => if i < elem.length then elem.getD i 0 else if i = elem.length then 0 else name i

def skipelem (path : List Byte) (name : Name) : Option (List Byte × Name) :=
  match path.dropWhile (· = slash) with
  | [] => none
  | c :: p =>
    let elem := (c :: p).takeWhile (· ≠ slash)
    some (((c :: p).dropWhile (· ≠ slash)).dropWhile (· = slash), putName name elem)

section
variable (sb : Superblock)

def namexLoop (nameiparent : Bool) : ℕ → List Byte → Ip → Name → M (Option Ip × Name)
  | 0, _, _, name => return (none, name)
  | fuel + 1, path, ip, name =>
    match skipelem path name with
    | none =>
      if nameiparent then do
        iput sb ip
        return (none, name)
      else return (some ip, name)
    | some (rest, name) => do
      ilock sb ip
      let s ← get
      if (s.inode ip).d.type ≠ T_DIR then
        iunlockput sb ip
        return (none, name)
      else if nameiparent = true ∧ rest = [] then
        iunlock ip
        return (some ip, name)
      else
        match ← dirlookup sb ip name with
        | none =>
          iunlockput sb ip
          return (none, name)
        | some (next, _) =>
          iunlockput sb ip
          namexLoop nameiparent fuel rest next name

def namex (path : List Byte) (nameiparent : Bool) (name : Name) (cwd : Ip) : M (Option Ip × Name) := do
  let ip ← if path.head? = some slash then iget ROOTINO else idup cwd
  namexLoop sb nameiparent (path.length + 1) path ip name

/-- `name` is what is on the stack where the buffer is. -/
def namei (path : List Byte) (name : Name) (cwd : Ip) : M (Option Ip) := do
  let r ← namex sb path false name cwd
  return r.1

def nameiparent (path : List Byte) (name : Name) (cwd : Ip) : M (Option Ip × Name) := namex sb path true name cwd

end

theorem cname_congr_zero (h : ∀ i ≤ k, p i = q i) (hk : p k = 0) : cname n p = cname n q := by
  induction n generalizing p q k with
  | zero => rfl
  | succ n ih =>
    rw [cname, cname, ← h 0 (Nat.zero_le _)]
    split
    · rfl
    · next hne =>
      cases k with
      | zero => exact absurd hk hne
      | succ k => rw [ih (fun i hi => h (i + 1) (Nat.succ_le_succ hi)) hk]

theorem cname_putName (name : Name) (elem : List Byte) :
    cname DIRSIZ (putName name elem) = cname DIRSIZ (literal (elem.take DIRSIZ)) := by
  unfold putName
  split
  · next hlen =>
    refine cname_congr fun i hi => ?_
    rw [if_pos hi, literal, List.getD_eq_getElem?_getD, List.getD_eq_getElem?_getD, List.getElem?_take_of_lt hi]
  · next hlen =>
    have htake : elem.take DIRSIZ = elem := List.take_of_length_le (by omega)
    refine cname_congr_zero (k := elem.length) (fun i hi => ?_) (by simp)
    rw [htake, literal]
    by_cases hi' : i < elem.length
    · rw [if_pos hi']
    · obtain rfl : i = elem.length := by omega
      simp

theorem dirlookup_congr (h : cname DIRSIZ p = cname DIRSIZ q) (dp : Ip) : dirlookup sb dp p = dirlookup sb dp q := by
  have hcmp : ∀ de : Name, namecmp p de = 0 ↔ namecmp q de = 0 := by
    intro de
    rw [namecmp_eq_zero, namecmp_eq_zero, h]
  have hloop : ∀ fuel off, dirlookupLoop sb dp p fuel off = dirlookupLoop sb dp q fuel off := by
    intro fuel
    induction fuel with
    | zero => exact fun _ => rfl
    | succ fuel ih =>
      intro off
      simp only [dirlookupLoop, ih, hcmp]
  simp only [dirlookup, hloop]

/-- What a caller sees of the result: the inode and, where the parent was asked for, the name. -/
def seen (parent : Bool) (r : Option Ip × Name) : Option (Ip × List Byte) :=
  r.1.map fun ip => (ip, if parent then cname DIRSIZ r.2 else [])

def seenPair (parent : Bool) (r : Option (Ip × Name)) : Option (Ip × List Byte) :=
  r.map fun r => (r.1, if parent then cname DIRSIZ r.2 else [])

theorem namexLoop_seen (fuel : ℕ) (path : List Byte) (ip : Ip) (name name' : Name) :
    seen parent <$> namexLoop sb parent fuel path ip name =
      seenPair parent <$> Fs.namexLoop sb parent fuel path ip name' := by
  induction fuel generalizing path ip name name' with
  | zero => rfl
  | succ fuel ih =>
    rw [namexLoop, Fs.namexLoop, skipelem, Fs.skipelem]
    cases path.dropWhile (fun c => decide (c = slash)) with
    | nil =>
      cases parent with
      | true => exact map_bind_congr fun _ => rfl
      | false => rfl
    | cons c t =>
      simp only
      have hname := cname_putName name ((c :: t).takeWhile fun c => decide (c ≠ slash))
      generalize hb : putName name ((c :: t).takeWhile fun c => decide (c ≠ slash)) = b at hname ⊢
      generalize literal (((c :: t).takeWhile fun c => decide (c ≠ slash)).take DIRSIZ) = e at hname ⊢
      refine map_bind_congr fun _ => map_bind_congr fun s => ?_
      split
      · exact map_bind_congr fun _ => rfl
      · split
        · refine map_bind_congr fun _ => ?_
          rw [map_pure, map_pure, seen, seenPair, Option.map_some, Option.map_some, hname]
        · rw [dirlookup_congr hname]
          refine map_bind_congr fun r => ?_
          cases r with
          | none => exact map_bind_congr fun _ => rfl
          | some r => exact map_bind_congr fun _ => ih _ _ _ _

theorem namex_seen (path : List Byte) (name : Name) (cwd : Ip) :
    seen parent <$> namex sb path parent name cwd = seenPair parent <$> Fs.namex sb path parent cwd := by
  rw [namex, Fs.namex]
  split
  · exact map_bind_congr fun ip => namexLoop_seen _ path ip name _
  · exact map_bind_congr fun ip => namexLoop_seen _ path ip name _

/-- Either function leaves the result of the walk, and no reference but the one to it. -/
theorem namex_follows (hl : Layout sb) (hg : Good sb F s) (hd : Rows sb (nodes sb s.cache)) (ht : Tree sb s cwd)
    (hcwd : 0 < (s.inode cwd).ref) (path : List Byte) (parent : Bool) (name : Name) :
    wp (namex sb path parent name cwd) (fun r s' => Good sb F s' ∧ nodes sb s'.cache = nodes sb s.cache ∧
      match (target sb s parent path cwd).map fun t => (t.1, if parent then cname DIRSIZ t.2 else []) with
      | none => r.1 = none ∧ Over s s' []
      | some (n, c) => ∃ ip, r.1 = some ip ∧ (s'.inode ip).inum = n ∧ Over s s' [ip] ∧
          (parent = true → cname DIRSIZ r.2 = c)) (fun msg => msg = "iget: no inodes" ∧ s.Scarce) s := by
  have hwalk := namex_walk (E := fun msg => msg = "iget: no inodes" ∧ s.Scarce) hl hg hd hcwd (fun h => ⟨rfl, h⟩)
    (fun h => absurd ht h) path parent
  -- what the caller sees determines the rest
  have hseen : wp (seenPair parent <$> Fs.namex sb path parent cwd) (fun r s' => Good sb F s' ∧
      nodes sb s'.cache = nodes sb s.cache ∧
      match (target sb s parent path cwd).map fun t => (t.1, if parent then cname DIRSIZ t.2 else []) with
      | none => r = none ∧ Over s s' []
      | some (n, c) => ∃ ip, r = some (ip, c) ∧ (s'.inode ip).inum = n ∧ Over s s' [ip])
      (fun msg => msg = "iget: no inodes" ∧ s.Scarce) s := by
    refine wp_map.mpr (hwalk.mono fun r s' hpost => ?_)
    cases r with
    | none =>
      obtain ⟨hw, htree⟩ := hpost
      obtain ⟨htarget, hN⟩ := htree ht
      rw [htarget]
      exact ⟨hw.good, hN, rfl, hw.above⟩
    | some r =>
      obtain ⟨hw, _, htree⟩ := hpost
      obtain ⟨htarget, hN, _⟩ := htree ht
      rw [htarget]
      exact ⟨hw.good, hN, r.1, rfl, rfl, hw.above⟩
  rw [← namex_seen path name cwd] at hseen
  refine (wp_map.mp hseen).mono fun r s' ⟨hg', hN, hpost⟩ => ⟨hg', hN, ?_⟩
  obtain ⟨o, b⟩ := r
  cases hm : (target sb s parent path cwd).map fun t => (t.1, if parent then cname DIRSIZ t.2 else []) with
  | none =>
    rw [hm] at hpost
    exact ⟨Option.map_eq_none_iff.mp hpost.1, hpost.2⟩
  | some t =>
    rw [hm] at hpost
    obtain ⟨ip, hr, hi, hover⟩ := hpost
    obtain ⟨jp, ho, hpair⟩ := Option.map_eq_some_iff.mp hr
    obtain ⟨rfl, hname⟩ := Prod.mk.inj hpair
    exact ⟨jp, ho, hi, hover, fun hp => by rw [← hname, if_pos hp]⟩

/-- A path without zero bytes, in a file system whose directories hold whole entries that lead to inodes in use. Both
functions can stop only for want of two places in the inode table. -/
theorem path_resolution (hl : Layout sb) (hg : Good sb F s) (hd : Rows sb (nodes sb s.cache)) (ht : Tree sb s cwd)
    (hcwd : 0 < (s.inode cwd).ref) (path : List Byte) (h0 : 0 ∉ path) (name : Name) :
    wp (namei sb path name cwd) (fun r s' => Good sb F s' ∧ nodes sb s'.cache = nodes sb s.cache ∧
      match follow (nodes sb s.cache) (if path.head? = some slash then ROOTINO else (s.inode cwd).inum)
        (components path) with
      | none => r = none ∧ Over s s' []
      | some n => ∃ ip, r = some ip ∧ (s'.inode ip).inum = n ∧ Over s s' [ip])
      (fun msg => msg = "iget: no inodes" ∧ s.Scarce) s ∧
    wp (nameiparent sb path name cwd) (fun r s' => Good sb F s' ∧ nodes sb s'.cache = nodes sb s.cache ∧
      match followParent (nodes sb s.cache) (if path.head? = some slash then ROOTINO else (s.inode cwd).inum)
        (components path) with
      | none => r.1 = none ∧ Over s s' []
      | some (n, c) => ∃ ip, r.1 = some ip ∧ (s'.inode ip).inum = n ∧ Over s s' [ip] ∧ cname DIRSIZ r.2 = c)
      (fun msg => msg = "iget: no inodes" ∧ s.Scarce) s := by
  constructor
  · refine (namex_follows hl hg hd ht hcwd path false name).bind
      fun r s' ⟨hg', hN, hpost⟩ => ⟨hg', hN, ?_⟩
    have htarget := resolve_follow (N := nodes sb s.cache) h0 (Nat.lt_succ_self path.length) (pathStart path s cwd)
      (literal [])
    rw [pathStart] at htarget
    rw [← htarget]
    rw [target, pathStart] at hpost
    cases hres : resolve (nodes sb s.cache) false (path.length + 1) path
        (if path.head? = some slash then ROOTINO else (s.inode cwd).inum) (literal []) with
    | none =>
      rw [hres] at hpost
      exact hpost
    | some t =>
      rw [hres] at hpost
      obtain ⟨ip, hr, hi, hover, _⟩ := hpost
      exact ⟨ip, hr, hi, hover⟩
  · refine (namex_follows hl hg hd ht hcwd path true name).mono
      fun r s' ⟨hg', hN, hpost⟩ => ⟨hg', hN, ?_⟩
    have htarget := resolve_followParent (N := nodes sb s.cache) h0 (Nat.lt_succ_self path.length)
      (pathStart path s cwd) (literal [])
    rw [pathStart] at htarget
    rw [← htarget]
    rw [target, pathStart] at hpost
    cases hres : resolve (nodes sb s.cache) true (path.length + 1) path
        (if path.head? = some slash then ROOTINO else (s.inode cwd).inum) (literal []) with
    | none =>
      rw [hres] at hpost
      exact hpost
    | some t =>
      rw [hres] at hpost
      obtain ⟨ip, hr, hi, hover, hname⟩ := hpost
      exact ⟨ip, hr, hi, hover, hname rfl⟩

/-! ## The file `a` of the small disks -/

theorem eq_root (hdir : ∀ n < sb.ninodes, (nodes sb s.cache n).type = T_DIR → n = 1)
    (hn : (nodes sb s.cache n).type = T_DIR) : n = 1 := by
  have hlt : n < sb.ninodes := by
    by_contra hge
    rw [nodes_of_free fun ha => hge ha.1] at hn
    cases hn
  exact hdir n hlt hn

theorem tree_of_root (hdir : ∀ n < sb.ninodes, (nodes sb s.cache n).type = T_DIR → n = 1)
    (hent : ∀ j < (nodes sb s.cache 1).entries, (nodes sb s.cache ((nodes sb s.cache 1).dirent j).inum.toNat).type ≠ 0 ∧
      (nodes sb s.cache ((nodes sb s.cache 1).dirent j).inum.toNat).nlink ≠ 0)
    (hdot : 0 < (nodes sb s.cache 1).entries ∧ ((nodes sb s.cache 1).dirent 0).inum.toNat = 1)
    (hcwd : (s.inode cwd).inum = 1) : Tree sb s cwd := by
  have hstays : ∀ j < (nodes sb s.cache 1).entries, Stays sb s ((nodes sb s.cache 1).dirent j).inum.toNat :=
    fun j hj => ⟨(hent j hj).1, Or.inl (hent j hj).2⟩
  have hroot := hstays 0 hdot.1
  rw [hdot.2] at hroot
  constructor
  · exact hroot
  · rw [hcwd]
    exact hroot
  · intro n j hn hj _
    obtain rfl := eq_root hdir hn
    exact hstays j hj

theorem tree_tree : Tree treeSb treeState ⟨0, by decide⟩ :=
  tree_of_root (by decide) (by decide) (by decide) rfl

theorem tree_rows : Rows treeSb (nodes treeSb treeState.cache) := by
  intro n hn
  obtain rfl := eq_root (by decide) hn
  decide

theorem tree_path_resolution :
    wp (namei treeSb [47, 47, 97, 47] (literal []) ⟨0, by decide⟩) (fun r s' => ∃ ip, r = some ip ∧ (s'.inode ip).inum = 2 ∧
      Over treeState s' [ip]) (fun msg => msg = "iget: no inodes" ∧ treeState.Scarce) treeState := by
  have hfollow : follow (nodes treeSb treeState.cache) ROOTINO (components [47, 47, 97, 47]) = some 2 := by decide
  obtain ⟨h, _⟩ := path_resolution treeSb_layout tree_good tree_rows tree_tree (by decide) [47, 47, 97, 47] (by decide)
    (literal [])
  have hstart : ([47, 47, 97, 47] : List Byte).head? = some slash := rfl
  rw [if_pos hstart, hfollow] at h
  exact h.mono fun r s' ⟨_, _, hpost⟩ => hpost

/-- The path is there, but no place is left for the inode of `a`. -/
theorem full_namei_stops : Good fullSb ∅ fullState ∧ Rows fullSb (nodes fullSb fullState.cache) ∧
    Tree fullSb fullState ⟨0, by decide⟩ ∧ 0 < (fullState.inode ⟨0, by decide⟩).ref ∧
    follow (nodes fullSb fullState.cache) ROOTINO (components [47, 97]) = some 2 ∧
    namei fullSb [47, 97] (literal []) ⟨0, by decide⟩ fullState = .error "iget: no inodes" := by
  have hdir : ∀ n < fullSb.ninodes, (nodes fullSb fullState.cache n).type = T_DIR → n = 1 := by decide
  refine ⟨full_good, fun n hn => ?_, tree_of_root hdir (by decide) (by decide) rfl, by decide, by decide, rfl⟩
  obtain rfl := eq_root hdir hn
  decide

end Buffered

end Xv6Boot.Kernel.Fs
