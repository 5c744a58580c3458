import Xv6Boot.Kernel.FsCalls
import Xv6Boot.Kernel.FsWalk

/-! # A directory as a finite map

The map takes a name, cut to `DIRSIZ` bytes, to an inode number. Where an entry stands, what is left in the empty ones
and whether the directory had to grow do not show in it. `dirlookup` reads the map, `dirlink` extends it or fails, and
the write with which `sys_unlink` clears an entry takes one name out of it.
-/

namespace Xv6Boot.Kernel.Fs
open Function Program

variable {sb : Superblock} {F : Set ℕ} {s s' : State} {ip dp : Ip} {n m i j k v : ℕ} {E : String → Prop} {x y : Node}
  {name : Name} {nm : List Byte}

/-! ## Directories after a change -/

/-- The directory without its entry `j`. -/
def Node.clear (x : Node) (j : ℕ) : Node := x.write Dirent.zero.byte (j * direntSize) direntSize

theorem Node.emptySlot_le (x : Node) : x.emptySlot ≤ x.entries := by
  rcases x.emptySlot_cases with ⟨h, _⟩ | ⟨h, _⟩
  · exact h.le
  · exact h.le

theorem Node.link_dirent : (x.link name n).dirent k =
    if k = x.emptySlot then (linkEntry name n).stored else x.dirent k := dirent_write x _ _ _

theorem Node.clear_dirent : (x.clear j).dirent k = if k = j then Dirent.zero.stored else x.dirent k :=
  dirent_write x _ _ _

theorem Node.write_whole (h : x.size % direntSize = 0) (f : ℕ → Byte) :
    (x.write f (j * direntSize) direntSize).size % direntSize = 0 := by
  unfold Node.write direntSize at *
  simp only
  omega

theorem Node.write_entries (h : x.size % direntSize = 0) (f : ℕ → Byte) :
    (x.write f (j * direntSize) direntSize).entries = max x.entries (j + 1) := by
  unfold Node.write Node.entries direntSize at *
  simp only
  omega

theorem Node.link_entries (h : x.size % direntSize = 0) : (x.link name n).entries = max x.entries (x.emptySlot + 1) :=
  Node.write_entries h _

theorem Node.clear_entries (h : x.size % direntSize = 0) (hj : j < x.entries) : (x.clear j).entries = x.entries := by
  rw [Node.clear, Node.write_entries h]
  omega

theorem Dirent.zero_stored : Dirent.zero.stored.inum = 0 := rfl

theorem cname_linkEntry : cname DIRSIZ (linkEntry name n).stored.name = cname DIRSIZ name :=
  (cname_stored _).trans cname_strncpy

def Node.Distinct (x : Node) : Prop :=
  ∀ i < x.entries, ∀ j < x.entries, (x.dirent i).inum ≠ 0 → (x.dirent j).inum ≠ 0 →
    namecmp (x.dirent i).name (x.dirent j).name = 0 → i = j

namespace Node

theorem link_old (hk : k ≠ x.emptySlot) : (x.link name m).dirent k = x.dirent k := by rw [link_dirent, if_neg hk]

theorem link_new : (x.link name m).dirent x.emptySlot = (linkEntry name m).stored := by rw [link_dirent, if_pos rfl]

theorem clear_old (hk : k ≠ j) : (x.clear j).dirent k = x.dirent k := by rw [clear_dirent, if_neg hk]

theorem clear_new : ((x.clear j).dirent j).inum = 0 := by rw [clear_dirent, if_pos rfl, Dirent.zero_stored]

theorem Distinct.link (h : x.Distinct) (hw : x.size % direntSize = 0) (hf : x.find name = none) :
    (x.link name m).Distinct := by
  have hent : (x.link name m).entries = max x.entries (x.emptySlot + 1) := link_entries hw
  have hle := x.emptySlot_le
  have hother : ∀ k < (x.link name m).entries, k ≠ x.emptySlot → (x.dirent k).inum ≠ 0 →
      cname DIRSIZ name ≠ cname DIRSIZ (x.dirent k).name := by
    intro k hk hne h0 he
    exact find_none hf (by omega) h0 (namecmp_eq_zero.mpr he)
  intro i hi j hj hi0 hj0 hname
  rw [namecmp_eq_zero] at hname
  by_cases his : i = x.emptySlot
  · by_cases hjs : j = x.emptySlot
    · rw [his, hjs]
    · rw [link_old hjs] at hj0 hname
      rw [his, link_new, cname_linkEntry] at hname
      exact absurd hname (hother j hj hjs hj0)
  · rw [link_old his] at hi0 hname
    by_cases hjs : j = x.emptySlot
    · rw [hjs, link_new, cname_linkEntry] at hname
      exact absurd hname.symm (hother i hi his hi0)
    · rw [link_old hjs] at hj0 hname
      exact h i (by omega) j (by omega) hi0 hj0 (namecmp_eq_zero.mpr hname)

theorem Distinct.clear (h : x.Distinct) (hw : x.size % direntSize = 0) (hj : j < x.entries) : (x.clear j).Distinct := by
  have hent : (x.clear j).entries = x.entries := clear_entries hw hj
  intro i hi k hk hi0 hk0 hname
  by_cases hij : i = j
  · rw [hij, clear_new] at hi0
    exact absurd rfl hi0
  · by_cases hkj : k = j
    · rw [hkj, clear_new] at hk0
      exact absurd rfl hk0
    · rw [clear_old hij, clear_old hkj] at hname
      rw [clear_old hij] at hi0
      rw [clear_old hkj] at hk0
      exact h i (hent ▸ hi) k (hent ▸ hk) hi0 hk0 hname

end Node

/-! ## The map -/

def Node.map (x : Node) (nm : List Byte) : Option ℕ :=
  ((List.range' 0 x.entries).find? fun j =>
    decide ((x.dirent j).inum ≠ 0 ∧ cname DIRSIZ (x.dirent j).name = nm)).map fun j => (x.dirent j).inum.toNat

/-- Entry `j` gives the name `nm` to inode `v`. -/
structure Node.Binds (x : Node) (j : ℕ) (nm : List Byte) (v : ℕ) : Prop where
  lt : j < x.entries
  used : (x.dirent j).inum ≠ 0
  name : cname DIRSIZ (x.dirent j).name = nm
  value : (x.dirent j).inum.toNat = v

namespace Node

theorem map_find (x : Node) (name : Name) :
    x.map (cname DIRSIZ name) = (x.find name).map fun j => (x.dirent j).inum.toNat := by
  have hname : (fun j => decide ((x.dirent j).inum ≠ 0 ∧ cname DIRSIZ (x.dirent j).name = cname DIRSIZ name)) =
      x.hasName name := by
    funext j
    rw [Node.hasName, decide_eq_decide, namecmp_eq_zero, eq_comm (a := cname DIRSIZ name)]
  rw [Node.map, hname, Node.find]

theorem Binds.of_map (h : x.map nm = some v) : ∃ j, x.Binds j nm v := by
  obtain ⟨j, hj, hv⟩ := Option.map_eq_some_iff.mp h
  have hmem := List.mem_range'_1.mp (List.mem_of_find?_eq_some hj)
  have hp := List.find?_some hj
  obtain ⟨hu, hname⟩ := of_decide_eq_true hp
  exact ⟨j, by omega, hu, hname, hv⟩

theorem not_binds_of_map (h : x.map nm = none) : ¬ x.Binds j nm v := by
  intro hb
  have hn := List.find?_eq_none.mp (Option.map_eq_none_iff.mp h) j
    (List.mem_range'_1.mpr ⟨Nat.zero_le _, by have := hb.lt; omega⟩)
  exact hn (decide_eq_true ⟨hb.used, hb.name⟩)

theorem Binds.unique {w : ℕ} (hx : x.Distinct) (h : x.Binds i nm v) (h' : x.Binds j nm w) : i = j ∧ v = w := by
  have hij : i = j :=
    hx i h.lt j h'.lt h.used h'.used (namecmp_eq_zero.mpr (h.name.trans h'.name.symm))
  subst hij
  exact ⟨rfl, h.value.symm.trans h'.value⟩

theorem map_eq_some (hx : x.Distinct) : x.map nm = some v ↔ ∃ j, x.Binds j nm v := by
  refine ⟨Binds.of_map, fun ⟨j, hb⟩ => ?_⟩
  cases h : x.map nm with
  | none => exact absurd hb (not_binds_of_map h)
  | some w =>
    obtain ⟨i, hi⟩ := Binds.of_map h
    rw [(hi.unique hx hb).2]

theorem map_ext {f : List Byte → Option ℕ} (hx : x.Distinct)
    (h : ∀ nm v, (∃ j, x.Binds j nm v) ↔ f nm = some v) : x.map = f := by
  funext nm
  refine Option.ext fun v => ?_
  rw [map_eq_some hx, h]

theorem link_binds (hw : x.size % direntSize = 0) (hn : 0 < n) (hn' : n < 2 ^ 16) :
    (x.link name n).Binds j nm v ↔
      (j = x.emptySlot ∧ nm = cname DIRSIZ name ∧ v = n) ∨ (j ≠ x.emptySlot ∧ x.Binds j nm v) := by
  have hent : (x.link name n).entries = max x.entries (x.emptySlot + 1) := link_entries hw
  have hle := x.emptySlot_le
  have hinum : (linkEntry name n).stored.inum.toNat = n := (BitVec.toNat_ofNat n 16).trans (Nat.mod_eq_of_lt hn')
  have hused : (linkEntry name n).stored.inum ≠ 0 := by
    intro h0
    rw [h0] at hinum
    exact hn.ne hinum
  by_cases hj : j = x.emptySlot
  · constructor
    · rintro ⟨_, _, hname, hv⟩
      rw [hj, link_new] at hname hv
      exact Or.inl ⟨hj, by rw [← hname, cname_linkEntry], by rw [← hv, hinum]⟩
    · rintro (⟨_, hname, hv⟩ | ⟨hne, _⟩)
      · rw [hj]
        constructor
        · omega
        · rw [link_new]
          exact hused
        · rw [link_new, cname_linkEntry, hname]
        · rw [link_new, hinum, hv]
      · exact absurd hj hne
  · have hold : (x.link name n).dirent j = x.dirent j := link_old hj
    constructor
    · rintro ⟨hlt, hu, hname, hv⟩
      rw [hold] at hu hname hv
      exact Or.inr ⟨hj, by omega, hu, hname, hv⟩
    · rintro (⟨he, _⟩ | ⟨_, hlt, hu, hname, hv⟩)
      · exact absurd he hj
      · rw [← hold] at hu hname hv
        exact ⟨by omega, hu, hname, hv⟩

theorem map_link (hx : x.Distinct) (hw : x.size % direntSize = 0) (hf : x.map (cname DIRSIZ name) = none) (hn : 0 < n)
    (hn' : n < 2 ^ 16) : (x.link name n).map = update x.map (cname DIRSIZ name) (some n) := by
  have hfind : x.find name = none := by
    rw [map_find] at hf
    exact Option.map_eq_none_iff.mp hf
  refine map_ext (hx.link hw hfind) fun nm v => ?_
  simp only [link_binds hw hn hn']
  by_cases hnm : nm = cname DIRSIZ name
  · subst hnm
    rw [update_self]
    constructor
    · rintro ⟨j, ⟨_, _, rfl⟩ | ⟨_, hb⟩⟩
      · rfl
      · exact absurd hb (not_binds_of_map hf)
    · intro h
      cases h
      exact ⟨_, Or.inl ⟨rfl, rfl, rfl⟩⟩
  · rw [update_of_ne hnm, map_eq_some hx]
    constructor
    · rintro ⟨j, ⟨_, he, _⟩ | ⟨_, hb⟩⟩
      · exact absurd he hnm
      · exact ⟨j, hb⟩
    · rintro ⟨j, hb⟩
      refine ⟨j, Or.inr ⟨fun he => ?_, hb⟩⟩
      -- the place that was taken held no name
      rcases x.emptySlot_cases with ⟨_, h0⟩ | ⟨hend, _⟩
      · exact hb.used (he ▸ h0)
      · exact hb.lt.ne (he.trans hend)

theorem clear_binds (hw : x.size % direntSize = 0) (hi : i < x.entries) :
    (x.clear i).Binds j nm v ↔ j ≠ i ∧ x.Binds j nm v := by
  have hent : (x.clear i).entries = x.entries := clear_entries hw hi
  constructor
  · rintro ⟨hlt, hu, hname, hv⟩
    have hj : j ≠ i := by
      rintro rfl
      exact hu clear_new
    rw [clear_old hj] at hu hname hv
    exact ⟨hj, hent ▸ hlt, hu, hname, hv⟩
  · rintro ⟨hj, hlt, hu, hname, hv⟩
    rw [← clear_old hj] at hu hname hv
    exact ⟨hent ▸ hlt, hu, hname, hv⟩

theorem map_clear (hx : x.Distinct) (hw : x.size % direntSize = 0) (hb : x.Binds i nm v) :
    (x.clear i).map = update x.map nm none := by
  refine map_ext (hx.clear hw hb.lt) fun nm' w => ?_
  simp only [clear_binds hw hb.lt]
  by_cases hnm : nm' = nm
  · subst hnm
    rw [update_self]
    constructor
    · rintro ⟨j, hj, hb'⟩
      exact absurd (hb'.unique hx hb).1 hj
    · nofun
  · rw [update_of_ne hnm, map_eq_some hx]
    constructor
    · rintro ⟨j, _, hb'⟩
      exact ⟨j, hb'⟩
    · rintro ⟨j, hb'⟩
      refine ⟨j, ?_, hb'⟩
      rintro rfl
      exact hnm (hb'.name.symm.trans hb.name)

theorem Binds.of_find (h : x.find name = some j) : x.Binds j (cname DIRSIZ name) (x.dirent j).inum.toNat := by
  obtain ⟨hlt, hu, hname⟩ := find_some h
  exact ⟨hlt, hu, (namecmp_eq_zero.mp hname).symm, rfl⟩

end Node

/-! ## The three operations -/

/-- The directory has the name, but the inode table has no place for its inode. -/
def LookupStops (s : State) (x : Node) (name : Name) : Prop := ∃ v, x.map (cname DIRSIZ name) = some v ∧ s.NoRoom v

theorem LookupStops.of_find (h : x.find name = some j) (hno : s.NoRoom (x.dirent j).inum.toNat) : LookupStops s x name := by
  refine ⟨_, ?_, hno⟩
  rw [Node.map_find, h]
  rfl

theorem dirlookup_map (hl : Layout sb) (hg : Good sb F s) (hd : Dir sb s dp x) (name : Name)
    (hE : LookupStops s x name → E "iget: no inodes") :
    wp (dirlookup sb dp name) (fun r s' => Good sb F s' ∧ s'.cache = s.cache ∧
      match x.map (cname DIRSIZ name) with
      | none => r = none ∧ s' = s
      | some v => ∃ ip j, r = some (ip, j * direntSize) ∧ Took s s' ip v ∧ x.Binds j (cname DIRSIZ name) v) E s := by
  refine (dirlookup_wp hl hg hd name fun _ hf hno => hE (.of_find hf hno)).mono
    fun r s' ⟨hg', hc, hpost⟩ => ⟨hg', hc, ?_⟩
  rw [Node.map_find]
  cases hf : x.find name with
  | none =>
    rw [hf] at hpost
    exact hpost
  | some j =>
    rw [hf] at hpost
    obtain ⟨ip, hr, htook⟩ := hpost
    exact ⟨ip, j, hr, htook, Node.Binds.of_find hf⟩

/-- `dirlink` is refused: the name is there, or no entry is empty and the directory cannot grow. -/
def LinkRefused (sb : Superblock) (s : State) (dp : Ip) (x : Node) (name : Name) : Prop :=
  x.map (cname DIRSIZ name) ≠ none ∨
    ((∀ j < x.entries, (x.dirent j).inum ≠ 0) ∧
      (x.size = MAXFILE * BSIZE ∨ freeBlocks sb s.cache < (s.inode dp).d.need s.cache (x.size / BSIZE)))

theorem linkRefused_iff (hg : Good sb F s) (hd : Dir sb s dp x) :
    LinkRefused sb s dp x name ↔ x.find name ≠ none ∨ (x.emptySlot = x.entries ∧ ¬ Fits sb s dp x.emptySlot) := by
  have hmap : x.map (cname DIRSIZ name) ≠ none ↔ x.find name ≠ none := by
    rw [Node.map_find, ne_eq, Option.map_eq_none_iff]
  have hsize := hg.size_le (s.inode dp).inum
  rw [hd.node] at hsize
  have hmax : MAXFILE * BSIZE % direntSize = 0 := by decide
  have hent := hd.entries_eq
  have hfull : x.emptySlot = x.entries ↔ ∀ j < x.entries, (x.dirent j).inum ≠ 0 := by
    rcases x.emptySlot_cases with ⟨hlt, h0⟩ | ⟨he, hall⟩
    · exact ⟨fun h => absurd h hlt.ne, fun h => absurd h0 (h _ hlt)⟩
    · exact ⟨fun _ => hall, fun _ => he⟩
  rw [LinkRefused, hmap, ← hfull]
  refine or_congr_right (and_congr_right fun he => ?_)
  rw [he, Fits, hent, not_and_or, Nat.not_le, Nat.not_le]
  refine or_congr_left ?_
  unfold direntSize at *
  omega

theorem dirlink_map (hl : Layout sb) (hg : Good sb F s) (hd : Dir sb s dp x) (hx : x.Distinct) (name : Name)
    (hn : 0 < n) (hn' : n < 2 ^ 16) (hE : LookupStops s x name → E "iget: no inodes") :
    wp (dirlink sb dp name n) (fun r s' => Good sb F s' ∧ Over s s' [] ∧
      ((r = -1 ∧ LinkRefused sb s dp x name ∧ nodes sb s'.cache = nodes sb s.cache) ∨
        (r = 0 ∧ ¬ LinkRefused sb s dp x name ∧ ∃ y : Node,
          nodes sb s'.cache = update (nodes sb s.cache) (s.inode dp).inum y ∧
          y.type = T_DIR ∧ y.size % direntSize = 0 ∧ y.Distinct ∧
          y.map = update x.map (cname DIRSIZ name) (some n)))) E s := by
  refine (dirlink_wp hl hg hd name n fun _ hf hno => hE (.of_find hf hno)).mono
    fun r s' ⟨hg', hover, hpost⟩ => ⟨hg', hover, ?_⟩
  rw [linkRefused_iff hg hd]
  rcases hpost with ⟨rfl, ⟨hfind, hfits⟩, hnodes⟩ | ⟨rfl, hfail, hnodes⟩
  · right
    refine ⟨rfl, ?_, x.link name n, hnodes, hd.type, Node.write_whole hd.whole _, hx.link hd.whole hfind, ?_⟩
    · rintro (h | ⟨_, h⟩)
      · exact h hfind
      · exact h hfits
    · refine Node.map_link hx hd.whole ?_ hn hn'
      rw [Node.map_find, hfind]
      rfl
  · left
    refine ⟨rfl, ?_, hnodes⟩
    by_cases hfind : x.find name = none
    · exact Or.inr (hfail hfind)
    · exact Or.inl hfind

theorem LookupStops.dirlookup (h : LookupStops s x name) (hl : Layout sb) (hg : Good sb F s) (hd : Dir sb s dp x) :
    dirlookup sb dp name s = .error "iget: no inodes" := by
  obtain ⟨v, hm, hno⟩ := h
  have hrun := dirlookup_map (E := (· = "iget: no inodes")) hl hg hd name fun _ => rfl
  refine (hrun.mono fun r s' ⟨_, _, hpost⟩ => ?_).eq_error
  rw [hm] at hpost
  obtain ⟨ip, j, _, htook, _⟩ := hpost
  exact htook.room hg hno

theorem LookupStops.dirlink (h : LookupStops s x name) (hl : Layout sb) (hg : Good sb F s) (hd : Dir sb s dp x) (n : ℕ) :
    dirlink sb dp name n s = .error "iget: no inodes" := by
  refine wp.eq_error ?_
  rw [Fs.dirlink, wp_bind]
  exact wp_of_error (h.dirlookup hl hg hd) rfl

theorem clear_map (hl : Layout sb) (hg : Good sb F s) (hd : Dir sb s dp x) (hx : x.Distinct) (hb : x.Binds j nm v) :
    wp (writei sb dp (fun i => some (Dirent.zero.byte i)) (BitVec.ofNat 32 (j * direntSize))
        (BitVec.ofNat 32 direntSize)) (fun r s' => Good sb F s' ∧ SameTable s s' ∧ r = direntSize ∧ ∃ y : Node,
          nodes sb s'.cache = update (nodes sb s.cache) (s.inode dp).inum y ∧
          y.type = T_DIR ∧ y.size % direntSize = 0 ∧ y.Distinct ∧ y.map = update x.map nm none) E s := by
  refine (writeDirent_wp hl hg hd Dirent.zero hb.lt.le).mono fun r s' ⟨hg', htab, hpost⟩ => ⟨hg', htab, ?_⟩
  rcases hpost with ⟨hr, hnodes⟩ | ⟨_, hend, _⟩
  · exact ⟨hr, x.clear j, hnodes, hd.type, Node.write_whole hd.whole _, hx.clear hd.whole hb.lt,
      Node.map_clear hx hd.whole hb⟩
  · exact absurd hend hb.lt.ne

/-- A locked directory with whole entries, distinct names and inode numbers of the disk, read as a map. `dirlookup` and
`dirlink` stop exactly where the name is there and its inode has no entry in a full inode table. -/
theorem directory_is_map (hl : Layout sb) (hg : Good sb F s) (hd : Dir sb s dp x) (hx : x.Distinct) (name : Name) :
    (∀ nm v, x.map nm = some v ↔ ∃ j, x.Binds j nm v) ∧
    wp (dirlookup sb dp name) (fun r s' => Good sb F s' ∧ s'.cache = s.cache ∧
      match x.map (cname DIRSIZ name) with
      | none => r = none ∧ s' = s
      | some v => ∃ ip off, r = some (ip, off) ∧ Took s s' ip v ∧
        ∀ s₁, Good sb F s₁ → Dir sb s₁ dp x →
          wp (writei sb dp (fun i => some (Dirent.zero.byte i)) (BitVec.ofNat 32 off) (BitVec.ofNat 32 direntSize))
            (fun r s₂ => Good sb F s₂ ∧ SameTable s₁ s₂ ∧ r = direntSize ∧ ∃ y : Node,
              nodes sb s₂.cache = update (nodes sb s₁.cache) (s₁.inode dp).inum y ∧
              y.type = T_DIR ∧ y.size % direntSize = 0 ∧ y.Distinct ∧
              y.map = update x.map (cname DIRSIZ name) none) (fun _ => False) s₁)
      (fun msg => msg = "iget: no inodes" ∧ LookupStops s x name) s ∧
    (∀ n, 0 < n → n < 2 ^ 16 →
      wp (dirlink sb dp name n) (fun r s' => Good sb F s' ∧ Over s s' [] ∧
        ((r = -1 ∧ LinkRefused sb s dp x name ∧ nodes sb s'.cache = nodes sb s.cache) ∨
          (r = 0 ∧ ¬ LinkRefused sb s dp x name ∧ ∃ y : Node,
            nodes sb s'.cache = update (nodes sb s.cache) (s.inode dp).inum y ∧
            y.type = T_DIR ∧ y.size % direntSize = 0 ∧ y.Distinct ∧
            y.map = update x.map (cname DIRSIZ name) (some n))))
        (fun msg => msg = "iget: no inodes" ∧ LookupStops s x name) s) ∧
    (LookupStops s x name → dirlookup sb dp name s = .error "iget: no inodes" ∧
      ∀ n, dirlink sb dp name n s = .error "iget: no inodes") := by
  refine ⟨fun _ _ => Node.map_eq_some hx, ?_, fun n hn hn' => dirlink_map hl hg hd hx name hn hn' fun h => ⟨rfl, h⟩,
    fun h => ⟨h.dirlookup hl hg hd, h.dirlink hl hg hd⟩⟩
  refine (dirlookup_map hl hg hd name fun h => ⟨rfl, h⟩).mono fun r s' ⟨hg', hc, hpost⟩ => ⟨hg', hc, ?_⟩
  cases hm : x.map (cname DIRSIZ name) with
  | none =>
    rw [hm] at hpost
    exact hpost
  | some v =>
    rw [hm] at hpost
    obtain ⟨ip, j, hr, htook, hb⟩ := hpost
    exact ⟨ip, _, hr, htook, fun s₁ hg₁ hd₁ => clear_map hl hg₁ hd₁ hx hb⟩

theorem tree_distinct : (treeRoot.node treeDisk).Distinct := by
  unfold Node.Distinct
  decide

/-- The file `a` of the small disk. -/
theorem tree_directory_map :
    wp (dirlookup treeSb ⟨0, by decide⟩ (literal [97])) (fun r s' => ∃ ip off, r = some (ip, off) ∧ (s'.inode ip).inum = 2)
      (fun _ => False) treeState := by
  have hmap : (treeRoot.node treeDisk).map (cname DIRSIZ (literal [97])) = some 2 := by decide
  obtain ⟨_, hlookup, _⟩ := directory_is_map treeSb_layout tree_good tree_dir tree_distinct (literal [97])
  rw [hmap] at hlookup
  refine hlookup.imp (fun r s' ⟨_, _, ip, off, hr, htook, _⟩ => ⟨ip, off, hr, htook.inum⟩) ?_
  rintro _ ⟨_, v, _, hno⟩
  exact hno.full ⟨1, by decide⟩ rfl

/-- The name is in the directory, but there is no place left for its inode. -/
theorem full_dirlookup_stops : ∃ x, Good fullSb ∅ fullState ∧ Dir fullSb fullState ⟨0, by decide⟩ x ∧ x.Distinct ∧
    x.map (cname DIRSIZ (literal [97])) = some 2 ∧
    dirlookup fullSb ⟨0, by decide⟩ (literal [97]) fullState = .error "iget: no inodes" ∧
    dirlink fullSb ⟨0, by decide⟩ (literal [97]) 1 fullState = .error "iget: no inodes" := by
  have hdistinct : ((dinode fullSb fullDisk 1).node fullDisk).Distinct := by
    unfold Node.Distinct
    decide
  exact ⟨_, full_good, full_dir, hdistinct, by decide, rfl, rfl⟩

end Xv6Boot.Kernel.Fs
