import Xv6Boot.Kernel.FsDir
import Xv6Boot.Kernel.FsTable

/-! # Directories

A directory is a `Node` whose bytes are a row of entries. `dirlookup` finds the first entry with a name, `dirlink`
writes one entry into the first empty place or at the end, or changes nothing.
-/

namespace Xv6Boot.Kernel.Fs
open Function Program

variable {sb : Superblock} {F : Set ℕ} {s s₁ s' : State} {ip jp dp : Ip} {l l' : List Ip} {n m k i j : ℕ}
  {E : String → Prop} {p q : Name} {x : Node}

/-! ## Names -/

/-- What `strncmp` reads of a name: at most `n` bytes, none of them `0`. -/
def cname : ℕ → Name → List Byte
  | 0, _ => []
  | n + 1, p => if p 0 = 0 then [] else p 0 :: cname n fun i => p (i + 1)

theorem strncmp_eq_zero : strncmp p q n = 0 ↔ cname n p = cname n q := by
  induction n generalizing p q with
  | zero => simp [strncmp, cname]
  | succ n ih =>
    rw [strncmp, cname, cname]
    split
    · next h =>
      obtain ⟨hp, hpq⟩ := h
      rw [ih, if_neg hp, if_neg (hpq ▸ hp), hpq]
      simp
    · next h =>
      have hdiff : ((p 0).toNat : ℤ) - (q 0).toNat = 0 ↔ p 0 = q 0 := by
        rw [sub_eq_zero, Nat.cast_inj, BitVec.toNat_inj]
      rw [hdiff]
      by_cases hp : p 0 = 0
      · rw [if_pos hp, hp]
        by_cases hq : q 0 = 0
        · rw [if_pos hq, hq]
          simp
        · rw [if_neg hq]
          exact ⟨fun he => absurd he.symm hq, fun he => by cases he⟩
      · have hpq : p 0 ≠ q 0 := fun he => h ⟨hp, he⟩
        rw [if_neg hp]
        by_cases hq : q 0 = 0
        · rw [if_pos hq]
          simp [hpq]
        · rw [if_neg hq]
          simp [hpq]

theorem namecmp_eq_zero : namecmp p q = 0 ↔ cname DIRSIZ p = cname DIRSIZ q := strncmp_eq_zero

theorem cname_congr (h : ∀ i < n, p i = q i) : cname n p = cname n q := by
  induction n generalizing p q with
  | zero => rfl
  | succ n ih =>
    rw [cname, cname, h 0 (Nat.succ_pos n), ih fun i hi => h (i + 1) (by omega)]

theorem strncpy_succ (h : p 0 ≠ 0) : (fun i => strncpy p (i + 1)) = strncpy fun i => p (i + 1) := by
  funext i
  have h' : p 0 ≠ 0#8 := h
  simp [strncpy, List.range_succ_eq_map, h', Function.comp_def]

theorem cname_strncpy : cname n (strncpy p) = cname n p := by
  induction n generalizing p with
  | zero => rfl
  | succ n ih =>
    have h0 : strncpy p 0 = p 0 := by simp [strncpy]
    rw [cname, cname, h0]
    split
    · rfl
    · next h => rw [strncpy_succ h, ih]

/-! ## Entries -/

def Node.dirent (x : Node) (j : ℕ) : Dirent := Dirent.ofBytes fun i => (x.slice (j * direntSize) direntSize).getD i 0

def Node.entries (x : Node) : ℕ := x.size / direntSize

theorem slice_getD (x : Node) (off n i : ℕ) : (x.slice off n).getD i 0 = if i < n then x.bytes (off + i) else 0 := by
  split
  · next h => simp [Node.slice, h]
  · next h => simp [Node.slice, h]

def Dirent.stored (de : Dirent) : Dirent := ⟨de.inum, fun i => if i < DIRSIZ then de.name i else 0⟩

theorem dirent_write (x : Node) (de : Dirent) (j k : ℕ) :
    (x.write de.byte (j * direntSize) direntSize).dirent k = if k = j then de.stored else x.dirent k := by
  have hbyte : ∀ i < direntSize, (x.write de.byte (j * direntSize) direntSize).bytes (k * direntSize + i) =
      if k = j then de.byte i else x.bytes (k * direntSize + i) := by
    intro i hi
    unfold Node.write direntSize at *
    simp only
    by_cases hkj : k = j
    · subst hkj
      rw [if_pos (by omega), if_pos rfl, Nat.add_sub_cancel_left]
    · rw [if_neg (by omega), if_neg hkj]
  split
  · next hkj =>
    simp only [hkj, if_true] at hbyte
    rw [Node.dirent, Dirent.ofBytes, Dirent.stored, Dirent.mk.injEq]
    constructor
    · rw [← le16_byteOf de.inum]
      refine le16_congr fun i hi => ?_
      rw [slice_getD, if_pos (by unfold direntSize; omega), hkj, hbyte i (by unfold direntSize; omega), Dirent.byte,
        if_pos hi]
    · funext i
      rw [slice_getD, hkj]
      by_cases hi : i < DIRSIZ
      · have hi' : 2 + i < direntSize := by
          unfold direntSize DIRSIZ at *
          omega
        rw [if_pos hi', if_pos hi, hbyte _ hi', Dirent.byte, if_neg (by omega), Nat.add_sub_cancel_left]
      · rw [if_neg (by unfold direntSize DIRSIZ at *; omega), if_neg hi]
  · next hkj =>
    simp only [hkj, if_false] at hbyte
    rw [Node.dirent, Node.dirent]
    congr 1
    funext i
    rw [slice_getD, slice_getD]
    split
    · next hi => exact hbyte i hi
    · rfl

theorem cname_stored (de : Dirent) : cname DIRSIZ de.stored.name = cname DIRSIZ de.name :=
  cname_congr fun _ hi => if_pos hi

def Node.hasName (x : Node) (name : Name) (j : ℕ) : Bool :=
  decide ((x.dirent j).inum ≠ 0 ∧ namecmp name (x.dirent j).name = 0)

def Node.vacant (x : Node) (j : ℕ) : Bool := decide ((x.dirent j).inum = 0)

def Node.find (x : Node) (name : Name) : Option ℕ := (List.range' 0 x.entries).find? (x.hasName name)

def Node.emptySlot (x : Node) : ℕ := ((List.range' 0 x.entries).find? x.vacant).getD x.entries

theorem Node.hasName_iff {name : Name} :
    x.hasName name j = true ↔ (x.dirent j).inum ≠ 0 ∧ namecmp name (x.dirent j).name = 0 := decide_eq_true_iff

theorem Node.vacant_iff : x.vacant j = true ↔ (x.dirent j).inum = 0 := decide_eq_true_iff

theorem Node.find_some {name : Name} (h : x.find name = some j) :
    j < x.entries ∧ (x.dirent j).inum ≠ 0 ∧ namecmp name (x.dirent j).name = 0 := by
  have hmem := List.mem_range'_1.mp (List.mem_of_find?_eq_some h)
  exact ⟨by omega, Node.hasName_iff.mp (List.find?_some h)⟩

theorem Node.find_none {name : Name} (h : x.find name = none) (hj : j < x.entries) (h0 : (x.dirent j).inum ≠ 0) :
    namecmp name (x.dirent j).name ≠ 0 := by
  have hp := List.find?_eq_none.mp h j (List.mem_range'_1.mpr ⟨Nat.zero_le _, by omega⟩)
  exact fun hn => hp (Node.hasName_iff.mpr ⟨h0, hn⟩)

theorem Node.emptySlot_cases (x : Node) :
    (x.emptySlot < x.entries ∧ (x.dirent x.emptySlot).inum = 0) ∨
      (x.emptySlot = x.entries ∧ ∀ j < x.entries, (x.dirent j).inum ≠ 0) := by
  unfold Node.emptySlot
  cases h : (List.range' 0 x.entries).find? x.vacant with
  | some j =>
    have hmem := List.mem_range'_1.mp (List.mem_of_find?_eq_some h)
    exact Or.inl ⟨by rw [Option.getD_some]; omega, Node.vacant_iff.mp (List.find?_some h)⟩
  | none =>
    refine Or.inr ⟨rfl, fun j hj => ?_⟩
    have hp := List.find?_eq_none.mp h j (List.mem_range'_1.mpr ⟨Nat.zero_le _, by omega⟩)
    exact fun h0 => hp (Node.vacant_iff.mpr h0)

/-! ## References on top of others -/

/-- The references of `s'` are those of `s` and the ones in `l`; those of `s` stay where they are. -/
structure Over (s s' : State) (l : List Ip) : Prop where
  ref : ∀ jp, (s'.inode jp).ref = (s.inode jp).ref + l.count jp
  inum : ∀ jp, 0 < (s.inode jp).ref → (s'.inode jp).inum = (s.inode jp).inum
  valid : ∀ jp, 0 < (s.inode jp).ref → (s.inode jp).valid = true → (s'.inode jp).valid = true

namespace Over

theorem refl (s : State) : Over s s [] := ⟨fun _ => by simp, fun _ _ => rfl, fun _ _ h => h⟩

theorem ref_pos (h : Over s s' l) (hr : 0 < (s.inode jp).ref) : 0 < (s'.inode jp).ref := by
  have := h.ref jp
  omega

theorem trans {s'' : State} (h : Over s s' l) (h' : Over s' s'' l') : Over s s'' (l' ++ l) where
  ref jp := by
    rw [h'.ref, h.ref, List.count_append]
    push_cast
    ring
  inum jp hr := (h'.inum jp (h.ref_pos hr)).trans (h.inum jp hr)
  valid jp hr hv := h'.valid jp (h.ref_pos hr) (h.valid jp hr hv)

theorem of_took (h : Took s s' ip n) : Over s s' [ip] where
  ref jp := by
    rw [h.ref, List.count_singleton]
    by_cases hj : jp = ip
    · simp [hj]
    · simp [hj, Ne.symm hj]
  inum jp hr := h.kept.inum jp hr (by rw [h.ref]; split <;> omega)
  valid jp hr := h.kept.valid jp hr (by rw [h.ref]; split <;> omega)

theorem of_sameTable (h : SameTable s s') : Over s s' [] where
  ref jp := by rw [h.ref]; simp
  inum jp _ := h.inum jp
  valid jp _ hv := (h.valid jp).trans hv

theorem of_locked (h : Locked s s' ip) : Over s s' [] where
  ref jp := by rw [h.ref]; simp
  inum jp _ := h.inum jp
  valid jp hr := h.kept.valid jp hr (by rw [h.ref]; exact hr)

theorem perm (h : Over s s' l) (hl : l.Perm l') : Over s s' l' where
  ref jp := by rw [h.ref, hl.count_eq]
  inum := h.inum
  valid := h.valid

theorem drop (h : Over s s₁ (ip :: l)) (h' : Dropped s₁ s' ip) : Over s s' l := by
  have href : ∀ jp, (s'.inode jp).ref = (s.inode jp).ref + l.count jp := by
    intro jp
    rw [h'.ref, h.ref, List.count_cons]
    by_cases hj : jp = ip
    · simp [hj]
      ring
    · simp [hj, Ne.symm hj]
  refine ⟨href, fun jp hr => ?_, fun jp hr hv => ?_⟩
  · rw [h'.kept.inum jp (h.ref_pos hr) (by rw [href]; omega), h.inum jp hr]
  · exact h'.kept.valid jp (h.ref_pos hr) (by rw [href]; omega) (h.valid jp hr hv)

end Over

/-! ## The functions on directories -/

/-- The directory `dp` is locked, holds whole entries, and these name inodes of the disk. -/
structure Dir (sb : Superblock) (s : State) (dp : Ip) (x : Node) : Prop where
  ref : 0 < (s.inode dp).ref
  valid : (s.inode dp).valid = true
  node : nodes sb s.cache (s.inode dp).inum = x
  type : x.type = T_DIR
  whole : x.size % direntSize = 0
  lt : ∀ j < x.entries, (x.dirent j).inum.toNat < sb.ninodes

theorem Good.size_le (hg : Good sb F s) (n : ℕ) : (nodes sb s.cache n).size ≤ MAXFILE * BSIZE := by
  by_cases ha : Allocated sb (dinode sb s.cache) n
  · rw [nodes_of_alloc ha]
    exact (hg.filled n ha).size_le
  · rw [nodes_of_free ha]
    exact Nat.zero_le _

theorem Good.copy_node (hg : Good sb F s) (hr : 0 < (s.inode ip).ref) (hv : (s.inode ip).valid = true) :
    (s.inode ip).d.type = (nodes sb s.cache (s.inode ip).inum).type ∧
    (s.inode ip).d.nlink = (nodes sb s.cache (s.inode ip).inum).nlink ∧
    (s.inode ip).d.size.toNat = (nodes sb s.cache (s.inode ip).inum).size := by
  rw [nodes_of_alloc (hg.view hr hv).alloc, hg.copy ip hr hv]
  exact ⟨rfl, rfl, rfl⟩

theorem Dir.size_eq (hg : Good sb F s) (hd : Dir sb s dp x) : (s.inode dp).d.size.toNat = x.size := by
  rw [(hg.copy_node hd.ref hd.valid).2.2, hd.node]

theorem Dir.entries_eq (hd : Dir sb s dp x) : x.entries * direntSize = x.size :=
  Nat.div_mul_cancel (Nat.dvd_of_mod_eq_zero hd.whole)

theorem Dir.offset_toNat (hg : Good sb F s) (hd : Dir sb s dp x) (hj : j ≤ x.entries) :
    (BitVec.ofNat 32 (j * direntSize)).toNat = j * direntSize := by
  have hent := hd.entries_eq
  have hle := hg.size_le (s.inode dp).inum
  rw [hd.node] at hle
  have hlim : MAXFILE * BSIZE < 2 ^ 31 := by decide
  rw [BitVec.toNat_ofNat, Nat.mod_eq_of_lt]
  unfold direntSize at *
  omega

theorem readDirent_wp (hl : Layout sb) (hg : Good sb F s) (hd : Dir sb s dp x) {msg : String} (hj : j < x.entries) :
    wp (readDirent sb dp (j * direntSize) msg) (fun de s' => s' = s ∧ de = x.dirent j) E s := by
  have hsize := hd.entries_eq
  have hle := hg.size_le (s.inode dp).inum
  rw [hd.node] at hle
  have hlim : MAXFILE * BSIZE < 2 ^ 31 := by decide
  have hend : j * direntSize + direntSize ≤ x.size := by
    unfold direntSize at *
    omega
  have hoff := hd.offset_toNat hg hj.le
  have hn : (BitVec.ofNat 32 direntSize).toNat = direntSize := by decide
  have hread := readi_kernel (E := E) hl hg hd.ref hd.valid (BitVec.ofNat 32 (j * direntSize))
    (BitVec.ofNat 32 direntSize) (by rw [hoff, hn, hd.node]; exact hend)
  rw [hoff, hn, hd.node] at hread
  refine hread.bind ?_
  rintro r s₁ ⟨rfl, rfl⟩
  simp only [ne_eq, not_true_eq_false, if_false]
  exact ⟨rfl, rfl⟩

theorem range'_split (hj : j < n) : List.range' j (n - j) = j :: List.range' (j + 1) (n - (j + 1)) := by
  obtain ⟨m, rfl⟩ : ∃ m, n = j + 1 + m := ⟨n - (j + 1), by omega⟩
  rw [show j + 1 + m - j = m + 1 by omega, List.range'_succ, Nat.add_sub_cancel_left]

theorem dirlookupLoop_wp (hl : Layout sb) (hg : Good sb F s) (hd : Dir sb s dp x) (name : Name) (fuel : ℕ)
    (hfuel : x.entries ≤ j + fuel)
    (hE : ∀ k, (List.range' j (x.entries - j)).find? (x.hasName name) = some k → s.NoRoom (x.dirent k).inum.toNat →
      E "iget: no inodes") :
    wp (dirlookupLoop sb dp name fuel (j * direntSize)) (fun r s' => Good sb F s' ∧ s'.cache = s.cache ∧
      match (List.range' j (x.entries - j)).find? (x.hasName name) with
      | none => r = none ∧ s' = s
      | some k => ∃ ip, r = some (ip, k * direntSize) ∧ Took s s' ip (x.dirent k).inum.toNat) E s := by
  have hsize := hd.size_eq hg
  have hent := hd.entries_eq
  induction fuel generalizing j with
  | zero =>
    rw [show x.entries - j = 0 by omega]
    exact ⟨hg, rfl, rfl, rfl⟩
  | succ fuel ih =>
    rw [dirlookupLoop, wp_bind, wp_get, hsize]
    by_cases hj : j < x.entries
    · have hnext : (j + 1) * direntSize = j * direntSize + direntSize := Nat.succ_mul j direntSize
      have hgo := ih (j := j + 1) (by omega)
      rw [hnext] at hgo
      rw [range'_split hj] at hE ⊢
      rw [if_pos (by unfold direntSize at *; omega)]
      refine (readDirent_wp hl hg hd hj).bind ?_
      rintro _ s₁ ⟨rfl, rfl⟩
      by_cases h0 : (x.dirent j).inum = 0
      · rw [List.find?_cons_of_neg (fun h => (Node.hasName_iff.mp h).1 h0)] at hE ⊢
        rw [if_pos h0]
        exact hgo hE
      · rw [if_neg h0]
        by_cases hname : namecmp name (x.dirent j).name = 0
        · rw [List.find?_cons_of_pos (Node.hasName_iff.mpr ⟨h0, hname⟩)] at hE ⊢
          rw [if_pos hname]
          refine (iget_wp hg (hd.lt j hj) (hE j rfl)).bind fun ip s₂ ⟨hg₂, hc, htook⟩ => ?_
          exact ⟨hg₂, hc, ip, rfl, htook⟩
        · rw [List.find?_cons_of_neg (fun h => hname (Node.hasName_iff.mp h).2)] at hE ⊢
          rw [if_neg hname]
          exact hgo hE
    · rw [if_neg (by unfold direntSize at *; omega), show x.entries - j = 0 by omega]
      exact ⟨hg, rfl, rfl, rfl⟩

theorem dirlookup_wp (hl : Layout sb) (hg : Good sb F s) (hd : Dir sb s dp x) (name : Name)
    (hE : ∀ k, x.find name = some k → s.NoRoom (x.dirent k).inum.toNat → E "iget: no inodes") :
    wp (dirlookup sb dp name) (fun r s' => Good sb F s' ∧ s'.cache = s.cache ∧
      match x.find name with
      | none => r = none ∧ s' = s
      | some k => ∃ ip, r = some (ip, k * direntSize) ∧ Took s s' ip (x.dirent k).inum.toNat) E s := by
  have htype : (s.inode dp).d.type = T_DIR := by rw [(hg.copy_node hd.ref hd.valid).1, hd.node, hd.type]
  have hloop := dirlookupLoop_wp (E := E) (j := 0) hl hg hd name (direntTurns s dp)
    (by rw [direntTurns, hd.size_eq hg, ← Node.entries]; omega)
  rw [Nat.zero_mul, Nat.sub_zero] at hloop
  rw [dirlookup, wp_bind, wp_get, if_neg (not_not.mpr htype)]
  exact hloop hE

theorem emptyLoop_wp (hl : Layout sb) (hg : Good sb F s) (hd : Dir sb s dp x) (fuel : ℕ)
    (hfuel : x.entries ≤ j + fuel) (hj : j ≤ x.entries) :
    wp (emptyLoop sb dp fuel (j * direntSize)) (fun r s' => s' = s ∧
      r = ((List.range' j (x.entries - j)).find? x.vacant).getD x.entries * direntSize) E s := by
  have hsize := hd.size_eq hg
  have hent := hd.entries_eq
  induction fuel generalizing j with
  | zero =>
    obtain rfl : j = x.entries := by omega
    rw [Nat.sub_self]
    exact ⟨rfl, rfl⟩
  | succ fuel ih =>
    rw [emptyLoop, wp_bind, wp_get, hsize]
    by_cases hlt : j < x.entries
    · have hnext : (j + 1) * direntSize = j * direntSize + direntSize := Nat.succ_mul j direntSize
      have hgo := ih (j := j + 1) (by omega) hlt
      rw [hnext] at hgo
      rw [if_pos (by unfold direntSize at *; omega), range'_split hlt]
      refine (readDirent_wp hl hg hd hlt).bind ?_
      rintro _ s₁ ⟨rfl, rfl⟩
      by_cases h0 : (x.dirent j).inum = 0
      · rw [if_pos h0, List.find?_cons_of_pos (Node.vacant_iff.mpr h0)]
        exact ⟨rfl, rfl⟩
      · rw [if_neg h0, List.find?_cons_of_neg (fun h => h0 (Node.vacant_iff.mp h))]
        exact hgo
    · obtain rfl : j = x.entries := by omega
      rw [if_neg (by unfold direntSize at *; omega), Nat.sub_self]
      exact ⟨rfl, rfl⟩

theorem writeDirent_wp (hl : Layout sb) (hg : Good sb F s) (hd : Dir sb s dp x) (de : Dirent) (hj : j ≤ x.entries) :
    wp (writei sb dp (fun i => some (de.byte i)) (BitVec.ofNat 32 (j * direntSize)) (BitVec.ofNat 32 direntSize))
      (fun r s' => Good sb F s' ∧ SameTable s s' ∧
        ((r = direntSize ∧ nodes sb s'.cache =
            update (nodes sb s.cache) (s.inode dp).inum (x.write de.byte (j * direntSize) direntSize)) ∨
          (r ≠ direntSize ∧ j = x.entries ∧ nodes sb s'.cache = nodes sb s.cache))) E s := by
  have hent := hd.entries_eq
  have hle := hg.size_le (s.inode dp).inum
  rw [hd.node] at hle
  have hlim : MAXFILE * BSIZE < 2 ^ 31 ∧ MAXFILE * BSIZE % direntSize = 0 := by decide
  have hoff := hd.offset_toNat hg hj
  have hn : (BitVec.ofNat 32 direntSize).toNat = direntSize := by decide
  have hwrite := writei_kernel (E := E) hl hg hd.ref hd.valid de.byte (BitVec.ofNat 32 (j * direntSize))
    (BitVec.ofNat 32 direntSize)
  rw [hoff, hn, hd.node] at hwrite
  refine hwrite.mono fun r s₁ hpost => ?_
  rcases hpost with ⟨rfl, rfl, hbad⟩ | ⟨_, _, tot, rfl, htot, hg', htab, hnodes, hshort⟩
  · refine ⟨hg, SameTable.refl _, Or.inr ⟨by decide, ?_, rfl⟩⟩
    unfold direntSize at *
    omega
  · refine ⟨hg', htab, ?_⟩
    by_cases hfull : tot = direntSize
    · subst hfull
      exact Or.inl ⟨rfl, hnodes⟩
    · -- a block holds whole entries, so a short write is empty
      have hstuck := hshort (by omega)
      have hedge := hstuck.edge
      have hsz := hstuck.size_le
      have h0 : tot = 0 := by
        unfold BSIZE direntSize at *
        omega
      subst h0
      refine Or.inr ⟨by simp [direntSize], by unfold direntSize at *; omega, ?_⟩
      rw [hnodes, update_eq_self_iff, hd.node]
      have hwr : x.write de.byte (j * direntSize) 0 = x := by
        have hsize : max x.size (j * direntSize + 0) = x.size := by
          unfold direntSize at *
          omega
        have hbytes : (fun k => if j * direntSize ≤ k ∧ k < j * direntSize + 0 then de.byte (k - j * direntSize)
            else x.bytes k) = x.bytes := funext fun k => if_neg (by omega)
        rw [Node.write, hsize, hbytes]
      exact hwr

/-- There is room for entry `j`: the file does not get too long, and the blocks that are missing can be had. -/
def Fits (sb : Superblock) (s : State) (dp : Ip) (j : ℕ) : Prop :=
  j * direntSize + direntSize ≤ MAXFILE * BSIZE ∧
    (s.inode dp).d.need s.cache (j * direntSize / BSIZE) ≤ freeBlocks sb s.cache

theorem writeDirent_fits (hl : Layout sb) (hg : Good sb F s) (hd : Dir sb s dp x) (de : Dirent) (hj : j ≤ x.entries) :
    wp (writei sb dp (fun i => some (de.byte i)) (BitVec.ofNat 32 (j * direntSize)) (BitVec.ofNat 32 direntSize))
      (fun r _ => r = direntSize ↔ Fits sb s dp j) E s := by
  have hent := hd.entries_eq
  have hsize := hd.size_eq hg
  have hle := hg.size_le (s.inode dp).inum
  rw [hd.node] at hle
  have hlim : MAXFILE * BSIZE + direntSize < 2 ^ 31 := by decide
  have hoff := hd.offset_toNat hg hj
  have hn : (BitVec.ofNat 32 direntSize).toNat = direntSize := by decide
  have hmax : (BitVec.ofNat 32 (MAXFILE * BSIZE)).toNat = MAXFILE * BSIZE := by decide
  have hadd : (BitVec.ofNat 32 (j * direntSize) + BitVec.ofNat 32 direntSize).toNat =
      j * direntSize + direntSize := by
    rw [BitVec.toNat_add, hoff, hn, Nat.mod_eq_of_lt]
    unfold direntSize at *
    omega
  have hgt : ∀ a b : BitVec 32, a > b ↔ b.toNat < a.toNat := fun _ _ => Iff.rfl
  rw [writei, wp_bind, wp_get, if_neg]
  · by_cases hend : j * direntSize + direntSize ≤ MAXFILE * BSIZE
    · rw [if_neg (by rw [hgt, hadd, hmax]; omega)]
      -- the rest of the call keeps the number of bytes
      have hrest : ∀ (r : ℕ × ℕ) (s₁ : State),
          (r.1 = direntSize ↔ (s.inode dp).d.need s.cache (j * direntSize / BSIZE) ≤ freeBlocks sb s.cache) →
          ((r.1 : ℤ) = direntSize ↔ Fits sb s dp j) := by
        intro r s₁ hr
        rw [Nat.cast_inj, hr]
        exact ⟨fun h => ⟨hend, h⟩, fun h => h.2⟩
      have hloop : wp (writeLoop sb dp (fun i => some (de.byte i)) direntSize direntSize 0 (j * direntSize)) (fun r _ =>
          r.1 = direntSize ↔ (s.inode dp).d.need s.cache (j * direntSize / BSIZE) ≤ freeBlocks sb s.cache) E s := by
        have hmod : direntSize ≤ BSIZE - j * direntSize % BSIZE := by
          unfold direntSize BSIZE at *
          omega
        have hbn : j * direntSize / BSIZE < MAXFILE := by
          unfold direntSize MAXFILE NDIRECT NINDIRECT BSIZE at *
          omega
        have hview := hg.view hd.ref hd.valid
        rw [show direntSize = 15 + 1 from rfl, writeLoop, if_pos (by decide), ← show direntSize = 15 + 1 from rfl]
        refine (bmap_step hl hview hg.owned hbn).bind fun a s₁ hstep => ?_
        have hspace := (hstep.space hl hview hg.owned).1
        split
        · next h0 =>
          have hlt := hspace.mp h0
          show (0 = direntSize ↔ _)
          exact ⟨fun h => absurd h (by decide), fun h => absurd h (Nat.not_le.mpr hlt)⟩
        · next h0 =>
          have hroom : (s.inode dp).d.need s.cache (j * direntSize / BSIZE) ≤ freeBlocks sb s.cache :=
            Nat.le_of_not_lt fun h => h0 (hspace.mpr h)
          have hall : mappedPrefix (fun i => (some (de.byte (0 + i))).isSome)
              (min (direntSize - 0) (BSIZE - j * direntSize % BSIZE)) =
              min (direntSize - 0) (BSIZE - j * direntSize % BSIZE) :=
            mappedPrefix_eq le_rfl (fun _ _ => rfl) fun h => absurd h (lt_irrefl _)
          simp only [bread, setData, wp_bind, wp_get, wp_pure, wp_modify, logWrite]
          rw [hall, if_neg (lt_irrefl _), Nat.min_eq_left (by omega), Nat.sub_zero, Nat.zero_add]
          simp only [wp_bind, wp_modify]
          rw [writeLoop, if_neg (lt_irrefl _)]
          exact ⟨fun _ => hroom, fun _ => rfl⟩
      rw [hn, hoff]
      refine hloop.bind fun r s₁ hr => ?_
      rw [wp_bind, wp_get]
      split
      · exact wp_bind.mpr (setCopy_wp (wp_bind.mpr (iupdate_wp (hrest r s₁ hr))))
      · exact wp_bind.mpr (iupdate_wp (hrest r s₁ hr))
    · rw [if_pos (by rw [hgt, hadd, hmax]; omega)]
      show ((-1 : ℤ) = direntSize ↔ _)
      exact ⟨fun h => absurd h (by decide), fun h => absurd h.1 hend⟩
  · rw [hgt, BitVec.lt_def, hadd, hoff, hsize]
    unfold direntSize at *
    omega

def linkEntry (name : Name) (inum : ℕ) : Dirent := ⟨BitVec.ofNat 16 inum, strncpy name⟩

/-- The directory after `dirlink`. -/
def Node.link (x : Node) (name : Name) (inum : ℕ) : Node :=
  x.write (linkEntry name inum).byte (x.emptySlot * direntSize) direntSize

theorem dirlink_wp (hl : Layout sb) (hg : Good sb F s) (hd : Dir sb s dp x) (name : Name) (inum : ℕ)
    (hE : ∀ k, x.find name = some k → s.NoRoom (x.dirent k).inum.toNat → E "iget: no inodes") :
    wp (dirlink sb dp name inum) (fun r s' => Good sb F s' ∧ Over s s' [] ∧
      ((r = 0 ∧ (x.find name = none ∧ Fits sb s dp x.emptySlot) ∧
          nodes sb s'.cache = update (nodes sb s.cache) (s.inode dp).inum (x.link name inum)) ∨
        (r = -1 ∧ (x.find name = none → x.emptySlot = x.entries ∧ ¬ Fits sb s dp x.emptySlot) ∧
          nodes sb s'.cache = nodes sb s.cache))) E s := by
  refine (dirlookup_wp hl hg hd name hE).bind fun r s₁ ⟨hg₁, hc, hfind⟩ => ?_
  cases hx : x.find name with
  | some k =>
    simp only [hx] at hfind
    obtain ⟨ip, rfl, htook⟩ := hfind
    have hr : 0 < (s₁.inode ip).ref := by
      have h0 := hg.nonneg ip
      rw [htook.ref, if_pos rfl]
      omega
    refine (iput_good hl hg₁ hr).bind fun _ s₂ ⟨hg₂, hdrop, hnodes⟩ => ?_
    refine ⟨hg₂, (Over.of_took htook).drop hdrop, Or.inr ⟨rfl, nofun, ?_⟩⟩
    -- with one reference the inode has not been read
    rw [hnodes, if_neg, hc]
    rintro ⟨h1, hv, _⟩
    have hz : (s.inode ip).ref = 0 := by
      have := htook.ref ip
      rw [if_pos rfl] at this
      omega
    rw [htook.fresh hz] at hv
    cases hv
  | none =>
    simp only [hx] at hfind
    obtain ⟨rfl, rfl⟩ := hfind
    have hloop := emptyLoop_wp (E := E) (j := 0) hl hg hd (direntTurns s₁ dp)
      (by rw [direntTurns, hd.size_eq hg, ← Node.entries]; omega) (Nat.zero_le _)
    rw [Nat.zero_mul, Nat.sub_zero] at hloop
    rw [wp_bind, wp_get]
    refine hloop.bind ?_
    rintro _ s₂ ⟨rfl, rfl⟩
    have hslot : x.emptySlot ≤ x.entries := by
      rcases x.emptySlot_cases with ⟨h, _⟩ | ⟨h, _⟩
      · exact h.le
      · exact h.le
    have hwrite := (writeDirent_wp (E := E) hl hg hd (linkEntry name inum) hslot).and
      (writeDirent_fits hl hg hd (linkEntry name inum) hslot)
    refine hwrite.bind fun r s₃ ⟨⟨hg₃, htab, hpost⟩, hfits⟩ => ?_
    rcases hpost with ⟨rfl, hnodes⟩ | ⟨hr, hend, hnodes⟩
    · rw [if_neg (not_not.mpr rfl)]
      exact ⟨hg₃, Over.of_sameTable htab, Or.inl ⟨rfl, ⟨rfl, hfits.mp rfl⟩, hnodes⟩⟩
    · rw [if_pos hr]
      exact ⟨hg₃, Over.of_sameTable htab, Or.inr ⟨rfl, fun _ => ⟨hend, fun h => hr (hfits.mpr h)⟩, hnodes⟩⟩

/-! ## A disk with a root directory and a file `a` in it, an ELF header without program headers -/

def treeSb : Superblock := ⟨8, 4, 3, 2, 3⟩

def treeRoot : Dinode := { Dinode.zero with type := 1, nlink := 1, size := 48, addrs := fun i => if i = 0 then 4 else 0 }

def treeFile : Dinode := { emptyFile with size := 64, addrs := fun i => if i = 0 then 5 else 0 }

def treeDisk (b : ℕ) : Data :=
  if b = 2 then putDinode (putDinode (fun _ => 0) 1 treeRoot) 2 treeFile
  else if b = 3 then fun i => if i = 0 then 63 else 0
  else if b = 4 then fun i => [1, 0, 46, 0, 0, 0, 0, 0, 0, 0, 0, 0, 0, 0, 0, 0, 1, 0, 46, 46, 0, 0, 0, 0, 0, 0, 0, 0, 0, 0,
    0, 0, 2, 0, 97].getD i 0
  else if b = 5 then fun i => [127, 69, 76, 70].getD i 0
  else fun _ => 0

def treeState : State where
  cache := treeDisk
  store := treeDisk
  log := []
  inode ip := if ip = ⟨0, NINODE_pos⟩ then ⟨1, 1, true, treeRoot⟩ else ⟨0, 0, false, Dinode.zero⟩

theorem treeSb_layout : Layout treeSb := by constructor <;> decide

theorem tree_dinode : dinode treeSb treeDisk 1 = treeRoot :=
  (getDinode_putDinode _ 2 1 treeFile).trans ((getDinode_putDinode _ 1 1 treeRoot).trans (if_pos rfl))

theorem tree_good : Good treeSb ∅ treeState := by
  refine .of_one (fun jp (hj : jp ≠ ⟨0, by decide⟩) => ?_) (by decide) (by decide) ?_ (by decide)
    (firstBlocks_owned (f := fun n => if n = 1 ∨ n = 2 then n + 3 else 0) (by decide) (by decide) (by decide) (by decide)
      (by decide)) (firstBlocks_filled (by decide))
  · rw [show treeState.inode jp = ⟨0, 0, false, Dinode.zero⟩ from if_neg hj]
  · exact tree_dinode.symm

theorem tree_root : nodes treeSb treeDisk 1 = treeRoot.node treeDisk := by
  have h1 := tree_dinode
  have hall : Allocated treeSb (dinode treeSb treeDisk) 1 := ⟨by decide, by rw [h1]; decide⟩
  rw [nodes_of_alloc hall, h1]

theorem tree_dir : Dir treeSb treeState ⟨0, by decide⟩ (treeRoot.node treeDisk) where
  ref := by decide
  valid := rfl
  node := tree_root
  type := rfl
  whole := rfl
  lt := by decide

/-! ## The same with fifty inodes in use, none of them `a` -/

def fullSb : Superblock := ⟨8, 1, 52, 2, 6⟩

def fullDisk (b : ℕ) : Data :=
  if b = 2 then putDinode (putDinode (fun i => putDinode (fun _ => 0) 0 emptyFile (i % 64)) 0 Dinode.zero) 1
    { treeRoot with addrs := fun i => if i = 0 then 7 else 0 }
  else if b < 6 then fun i => putDinode (fun _ => 0) 0 emptyFile (i % 64)
  else if b = 6 then fun i => if i = 0 then 255 else 0
  else treeDisk 4

def fullState : State where
  cache := fullDisk
  store := fullDisk
  log := []
  inode ip := ⟨if ip.val = 0 then 1 else ip.val + 2, 1, true, dinode fullSb fullDisk (if ip.val = 0 then 1 else ip.val + 2)⟩

theorem full_good : Good fullSb ∅ fullState := by
  have hlt : ∀ ip : Ip, (if ip.val = 0 then 1 else ip.val + 2) < 52 := by
    intro ip
    have : ip.val < 50 := ip.isLt
    split <;> omega
  have htype : ∀ n < 52, (dinode fullSb fullDisk n).type = 0 ↔ n = 0 := by decide
  constructor
  · exact fun ip _ => hlt ip
  · exact fun _ => Int.one_nonneg
  · intro ip jp _ _ he
    have he' : (if ip.val = 0 then 1 else ip.val + 2) = if jp.val = 0 then 1 else jp.val + 2 := he
    refine Fin.ext ?_
    split at he' <;> split at he' <;> omega
  · exact fun _ _ _ => rfl
  · intro ip _ _ h0
    have hz := (htype _ (hlt ip)).mp h0
    split at hz <;> omega
  · exact firstBlocks_owned (f := fun n => if n = 1 then 7 else 0) (by decide) (by decide) (by decide) (by decide)
      (by decide)
  · exact firstBlocks_filled (by decide)

theorem full_dir : Dir fullSb fullState ⟨0, by decide⟩ ((dinode fullSb fullDisk 1).node fullDisk) where
  ref := by decide
  valid := rfl
  node := nodes_of_alloc (by decide)
  type := by decide
  whole := by decide
  lt := by decide

end Xv6Boot.Kernel.Fs
