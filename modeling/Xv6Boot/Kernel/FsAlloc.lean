import Xv6Boot.Kernel.FsOwned

/-! # `balloc`, `bfree` and `bmap`

What `bmap` may do to the file system: blocks are added to one inode, full of zeroes, and nothing that was there
changes. `View` ties the state to the inodes `D` while `ip` is locked and its copy may differ from the disk.
-/

namespace Xv6Boot.Kernel.Fs
open Function Program

/-! ## Stores that are logged -/

def State.put (s : State) (b : ℕ) (d : Data) : State :=
  { s with cache := update s.cache b d, store := update s.store b d, log := s.log ++ [b] }

def State.setEntry (s : State) (ip : Ip) (i : Inode) : State := { s with inode := update s.inode ip i }

section
variable (sb : Superblock)

def State.allocBlock (s : State) (b : ℕ) : State :=
  (s.put (sb.BBLOCK b) (setBit (s.cache (sb.BBLOCK b)) (b % BPB))).put b fun _ => 0

def State.addAddr (s : State) (ip : Ip) (i : Fin (NDIRECT + 1)) (b : ℕ) : State :=
  (s.allocBlock sb b).setEntry ip { s.inode ip with d := (s.inode ip).d.setAddr i (BitVec.ofNat 32 b) }

def State.addEntry (s : State) (a : BitVec 32) (j b : ℕ) : State :=
  (s.allocBlock sb b).put a.toNat (setWord ((s.allocBlock sb b).cache a.toNat) j (BitVec.ofNat 32 b))

def State.freeBlock (s : State) (b : ℕ) : State :=
  s.put (sb.BBLOCK b) (clearBit (s.cache (sb.BBLOCK b)) (b % BPB))

def State.writeInode (s : State) (n : ℕ) (x : Dinode) : State :=
  s.put (sb.IBLOCK n) (putDinode (s.cache (sb.IBLOCK n)) (n % IPB) x)

def Full (c : ℕ → Data) : Prop := ∀ b < sb.size, marked sb c b = true

end

variable {sb : Superblock} {s s' s'' : State} {ip : Ip} {c c' : ℕ → Data} {D D' D'' : ℕ → Dinode} {F : Set ℕ}
  {b n m bn k : ℕ} {d : Data} {x y : Dinode} {a : BitVec 32} {i : Inode} {E : String → Prop}
  {Q : PUnit → State → Prop}

@[simp] theorem State.put_cache : (s.put b d).cache = update s.cache b d := rfl
@[simp] theorem State.put_inode : (s.put b d).inode = s.inode := rfl
@[simp] theorem State.setEntry_cache : (s.setEntry ip i).cache = s.cache := rfl
@[simp] theorem State.setEntry_inode : (s.setEntry ip i).inode = update s.inode ip i := rfl

@[simp] theorem State.allocBlock_cache : (s.allocBlock sb b).cache = update (mark sb s.cache b) b fun _ => 0 := rfl

@[simp] theorem State.allocBlock_inode : (s.allocBlock sb b).inode = s.inode := rfl
@[simp] theorem State.addEntry_cache {j : ℕ} : (s.addEntry sb a j b).cache = update (s.allocBlock sb b).cache
    a.toNat (setWord ((s.allocBlock sb b).cache a.toNat) j (BitVec.ofNat 32 b)) := rfl

@[simp] theorem State.addEntry_inode {j : ℕ} : (s.addEntry sb a j b).inode = s.inode := rfl
@[simp] theorem State.freeBlock_cache : (s.freeBlock sb b).cache = unmark sb s.cache b := rfl
@[simp] theorem State.freeBlock_inode : (s.freeBlock sb b).inode = s.inode := rfl
@[simp] theorem State.writeInode_cache : (s.writeInode sb n x).cache = setDinode sb s.cache n x := rfl
@[simp] theorem State.writeInode_inode : (s.writeInode sb n x).inode = s.inode := rfl

theorem wp_put {α : Type} {f : M α} {Q : α → State → Prop} (h : wp f Q E (s.put b d)) :
    wp (do setData b d; logWrite b; f) Q E s := by
  simp only [setData, logWrite, wp_bind, wp_modify, update_self]
  exact h

theorem bzero_wp (h : Q ⟨⟩ (s.put b fun _ => 0)) : wp (bzero b) Q E s := by
  simp only [bzero, setData, logWrite, wp_bind, wp_modify, update_self]
  exact h

theorem setInode_wp {f : Inode → Inode} (h : Q ⟨⟩ (s.setEntry ip (f (s.inode ip)))) : wp (setInode ip f) Q E s := h

theorem setCopy_wp {f : Dinode → Dinode} (h : Q ⟨⟩ (s.setEntry ip { s.inode ip with d := f (s.inode ip).d })) :
    wp (setCopy ip f) Q E s := h

theorem iupdate_wp (h : Q ⟨⟩ (s.writeInode sb (s.inode ip).inum (s.inode ip).d)) : wp (iupdate sb ip) Q E s := by
  simp only [iupdate, bread, setData, logWrite, wp_bind, wp_get, wp_pure, wp_modify, update_self]
  exact h

/-! ## The free map -/

theorem freeBlock_some (h : freeBlock sb c = some b) : b < sb.size ∧ marked sb c b = false := by
  obtain ⟨k, _, hk⟩ := List.exists_of_findSome?_eq_some h
  obtain ⟨bi, hfind, hb⟩ := Option.map_eq_some_iff.mp hk
  have hbi : bi < BPB := List.mem_range.mp (List.mem_of_find?_eq_some hfind)
  have hp := List.find?_some hfind
  simp only [Bool.and_eq_true, decide_eq_true_eq, Bool.not_eq_true'] at hp
  have hmod : b % BPB = bi := by rw [← hb, Nat.mul_add_mod_self_right, Nat.mod_eq_of_lt hbi]
  have hdiv : sb.BBLOCK b = sb.BBLOCK (k * BPB) := by
    rw [Superblock.BBLOCK, Superblock.BBLOCK, ← hb, Nat.mul_comm, Nat.mul_add_div (by decide),
      Nat.div_eq_of_lt hbi, Nat.add_zero, Nat.mul_div_cancel_left _ (by decide)]
  exact ⟨hb ▸ hp.1, by rw [marked, hdiv, hmod]; exact hp.2⟩

theorem freeBlock_none (h : freeBlock sb c = none) : Full sb c := by
  intro b hb
  have hk := List.findSome?_eq_none_iff.mp h (b / BPB) (List.mem_range.mpr (by unfold BPB BSIZE; omega))
  have hfind := List.find?_eq_none.mp (Option.map_eq_none_iff.mp hk) (b % BPB)
    (List.mem_range.mpr (Nat.mod_lt _ (by decide)))
  have hsum : b / BPB * BPB + b % BPB = b := Nat.div_add_mod' b BPB
  have hblock : sb.BBLOCK (b / BPB * BPB) = sb.BBLOCK b := by
    rw [Superblock.BBLOCK, Superblock.BBLOCK, Nat.mul_div_cancel _ (by decide)]
  rw [hsum, hblock] at hfind
  simpa [hb, marked] using hfind

theorem balloc_wp {Q : BitVec 32 → State → Prop} (hfull : Full sb s.cache → Q 0 s)
    (hfree : ∀ b, b < sb.size → marked sb s.cache b = false → Q (BitVec.ofNat 32 b) (s.allocBlock sb b)) :
    wp (balloc sb) Q E s := by
  rw [balloc, wp_bind, wp_get]
  cases hf : freeBlock sb s.cache with
  | none => exact hfull (freeBlock_none hf)
  | some b =>
    obtain ⟨hb, hm⟩ := freeBlock_some hf
    exact wp_put (wp_bind.mpr (bzero_wp (hfree b hb hm)))

theorem bfree_wp (hm : marked sb s.cache a.toNat = true) (h : Q ⟨⟩ (s.freeBlock sb a.toNat)) :
    wp (bfree sb a) Q E s := by
  rw [marked] at hm
  simp only [bfree, bread, setData, logWrite, wp_bind, wp_get, wp_pure, hm, if_true, wp_modify, update_self]
  exact h

/-! ## What growing a file keeps -/

/-- `ip` is locked and its copy is the inode; the other inodes are as on disk. -/
structure View (sb : Superblock) (s : State) (ip : Ip) (D : ℕ → Dinode) : Prop where
  alloc : Allocated sb D (s.inode ip).inum
  copy : (s.inode ip).d = D (s.inode ip).inum
  disk : ∀ n < sb.ninodes, n ≠ (s.inode ip).inum → dinode sb s.cache n = D n

variable {i : Fin (NDIRECT + 1)}

theorem State.addAddr_addrs : ((s.addAddr sb ip i b).inode ip).d.addrs i = BitVec.ofNat 32 b := by
  rw [State.addAddr, State.setEntry_inode, update_self, setAddr_addrs, update_self]

/-- The addresses of `ip` may differ; nothing else of the inodes does. -/
structure Readdressed (sb : Superblock) (ip : Ip) (s s' : State) (D D' : ℕ → Dinode) : Prop where
  entry : ∃ x, s'.inode = update s.inode ip { s.inode ip with d := x }
  inode : ∃ f, D' = update D (s.inode ip).inum { D (s.inode ip).inum with addrs := f }
  disk : ∀ m < sb.ninodes, dinode sb s'.cache m = dinode sb s.cache m

namespace Readdressed

theorem refl (ip : Ip) (s : State) (D : ℕ → Dinode) : Readdressed sb ip s s D D where
  entry := ⟨(s.inode ip).d, (update_eq_self ip s.inode).symm⟩
  inode := ⟨(D (s.inode ip).inum).addrs, (update_eq_self _ D).symm⟩
  disk _ _ := rfl

theorem inum (h : Readdressed sb ip s s' D D') : (s'.inode ip).inum = (s.inode ip).inum := by
  obtain ⟨x, hx⟩ := h.entry
  rw [hx, update_self]

theorem allocated (h : Readdressed sb ip s s' D D') : Allocated sb D' m ↔ Allocated sb D m := by
  obtain ⟨f, hf⟩ := h.inode
  rw [hf]
  exact allocated_update Iff.rfl

theorem trans (h : Readdressed sb ip s s' D D') (h' : Readdressed sb ip s' s'' D' D'') :
    Readdressed sb ip s s'' D D'' where
  entry := by
    obtain ⟨x, hx⟩ := h.entry
    obtain ⟨y, hy⟩ := h'.entry
    exact ⟨y, by rw [hy, hx, update_idem, update_self]⟩
  inode := by
    obtain ⟨f, hf⟩ := h.inode
    obtain ⟨g, hg⟩ := h'.inode
    refine ⟨g, ?_⟩
    rw [hg, h.inum, hf, update_idem, update_self]
  disk m hm := (h'.disk m hm).trans (h.disk m hm)

end Readdressed

structure Grown (sb : Superblock) (ip : Ip) (s s' : State) (D D' : ℕ → Dinode) : Prop extends
    Readdressed sb ip s s' D D' where
  byteAt : ∀ m, Allocated sb D m → ∀ k, (D' m).byteAt s'.cache k = (D m).byteAt s.cache k
  ref : ∀ m t, Allocated sb D m → (D m).ref s.cache t ≠ 0 → (D' m).ref s'.cache t = (D m).ref s.cache t

theorem Grown.refl (ip : Ip) (s : State) (D : ℕ → Dinode) : Grown sb ip s s D D :=
  ⟨.refl ip s D, fun _ _ _ => rfl, fun _ _ _ _ => rfl⟩

theorem Grown.trans (h : Grown sb ip s s' D D') (h' : Grown sb ip s' s'' D' D'') : Grown sb ip s s'' D D'' where
  toReaddressed := h.toReaddressed.trans h'.toReaddressed
  byteAt m hm k := (h'.byteAt m (h.allocated.mpr hm) k).trans (h.byteAt m hm k)
  ref m t hm ht := by
    have he := h.ref m t hm ht
    exact (h'.ref m t (h.allocated.mpr hm) (by rw [he]; exact ht)).trans he

/-- A slot that was empty may hold a block of zeroes; the other blocks keep their contents. -/
theorem byteAt_congr (hr : ∀ t, y.ref c' t = x.ref c t ∨ (x.ref c t = 0 ∧ c' (y.ref c' t).toNat = fun _ => 0))
    (hd : ∀ t, t ≠ .addr indirect → x.ref c t ≠ 0 → c' (x.ref c t).toNat = c (x.ref c t).toNat) :
    y.byteAt c' k = x.byteAt c k := by
  unfold Dinode.byteAt
  cases ht : fileSlot (k / BSIZE) with
  | none => simp [Dinode.block, ht]
  | some t =>
    have hne : t ≠ .addr indirect := fun he => fileSlot_ne_indirect (he ▸ ht)
    rw [block_of_slot ht, block_of_slot ht]
    rcases hr t with he | ⟨hz, hc⟩
    · rw [he]
      split
      · rfl
      · next h0 => rw [hd t hne h0]
    · rw [hz, if_pos rfl, hc, ite_self]

theorem Owned.data_alloc (hl : Layout sb) (h : Owned sb c D F) (hb : b < sb.size) (hfree : marked sb c b = false)
    (hm : Allocated sb D m) {t : Slot} (ht : (D m).ref c t ≠ 0) :
    update (mark sb c b) b (fun _ => 0) ((D m).ref c t).toNat = c ((D m).ref c t).toNat := by
  rw [update_of_ne (h.ref_ne_free hm ht hfree), mark_data hl hb (h.ref_data hm ht).1]

theorem Owned.ref_alloc (hl : Layout sb) (h : Owned sb c D F) (hb : b < sb.size) (hfree : marked sb c b = false)
    (hm : Allocated sb D m) {t : Slot} : (D m).ref (update (mark sb c b) b fun _ => 0) t = (D m).ref c t :=
  ref_congr fun hne => h.data_alloc hl hb hfree hm (t := .addr indirect) hne

theorem Layout.ofNat_toNat (hl : Layout sb) (hb : b < sb.size) : (BitVec.ofNat 32 b).toNat = b := by
  have hs := hl.size
  rw [BitVec.toNat_ofNat, Nat.mod_eq_of_lt]
  omega

theorem Owned.ofNat_ne_zero (hl : Layout sb) (h : Owned sb c D F) (hb : b < sb.size)
    (hfree : marked sb c b = false) : BitVec.ofNat 32 b ≠ 0 := by
  intro he
  have hz := congrArg BitVec.toNat he
  rw [hl.ofNat_toNat hb] at hz
  have hd := h.data_of_free hfree
  have h1 := hl.inodes
  have h2 := hl.bmap
  have h3 := hl.inodestart
  have h4 : 0 ≤ sb.ninodes / IPB := Nat.zero_le _
  have h5 : 0 ≤ sb.size / BPB := Nat.zero_le _
  simp only [BitVec.ofNat_eq_ofNat, BitVec.toNat_ofNat, Nat.zero_mod] at hz
  omega

theorem allocated_setAddr :
    Allocated sb (update D n ((D n).setAddr i a)) m ↔ Allocated sb D m :=
  allocated_update Iff.rfl

theorem View.growAddr (hl : Layout sb) (hv : View sb s ip D) (ho : Owned sb s.cache D F) (hb : b < sb.size)
    (hfree : marked sb s.cache b = false) (hi : (s.inode ip).d.addrs i = 0) :
    ∃ D', View sb (s.addAddr sb ip i b) ip D' ∧ Owned sb (s.addAddr sb ip i b).cache D' F ∧
      Grown sb ip s (s.addAddr sb ip i b) D D' ∧ D' (s.inode ip).inum = (D (s.inode ip).inum).setAddr i
        (BitVec.ofNat 32 b) := by
  rw [hv.copy] at hi
  rw [State.addAddr, hv.copy]
  have hF : b ∉ F := fun hF => by simpa [hfree] using ho.exact.used_of_flight hF
  have hdata := ho.data_of_free hfree
  have hnat := hl.ofNat_toNat hb
  have hz : i = indirect → ∀ j, word ((s.allocBlock sb b).cache b) j = 0 := by
    intro _ j
    rw [State.allocBlock_cache, update_self, word_zero]
  refine ⟨update D (s.inode ip).inum ((D (s.inode ip).inum).setAddr i (BitVec.ofNat 32 b)), ?_, ?_, ?_,
    update_self ..⟩
  · constructor
    · simp only [State.setEntry_inode, update_self]
      exact allocated_setAddr.mpr hv.alloc
    · simp
    · intro m hm hne
      simp only [State.setEntry_inode, update_self] at hne
      rw [State.setEntry_cache, State.allocBlock_cache, dinode_data hl hm hdata, dinode_mark hl hm,
        update_of_ne hne]
      exact hv.disk m hm hne
  · exact (ho.alloc hl hb hfree).attachAddr hF hv.alloc hnat (ho.ofNat_ne_zero hl hb hfree) hi hz
  · have hself : ∀ t, ((D (s.inode ip).inum).setAddr i (BitVec.ofNat 32 b)).ref (s.allocBlock sb b).cache t =
        if t = .addr i then BitVec.ofNat 32 b else (D (s.inode ip).inum).ref s.cache t := by
      intro t
      rw [← ho.ref_alloc hl hb hfree hv.alloc]
      by_cases hii : i = indirect
      · subst hii
        exact ref_setAddr_indirect hi fun j => by rw [hnat]; exact hz rfl j
      · exact ref_setAddr_direct hii
    refine ⟨⟨⟨_, rfl⟩, ⟨_, rfl⟩, ?_⟩, ?_, ?_⟩
    · intro m hm
      rw [State.setEntry_cache, State.allocBlock_cache, dinode_data hl hm hdata, dinode_mark hl hm]
    · intro m hm k
      by_cases hmn : m = (s.inode ip).inum
      · subst hmn
        rw [update_self]
        refine byteAt_congr (fun t => ?_) fun t _ ht => ho.data_alloc hl hb hfree hm ht
        rw [State.setEntry_cache, hself t]
        split
        · next ht =>
          subst ht
          exact Or.inr ⟨hi, by rw [hnat]; exact update_self ..⟩
        · exact Or.inl rfl
      · rw [update_of_ne hmn]
        exact byteAt_congr (fun t => Or.inl (ho.ref_alloc hl hb hfree hm)) fun t _ ht =>
          ho.data_alloc hl hb hfree hm ht
    · intro m t hm ht
      by_cases hmn : m = (s.inode ip).inum
      · subst hmn
        rw [update_self, State.setEntry_cache, hself t, if_neg]
        rintro rfl
        exact ht hi
      · rw [update_of_ne hmn]
        exact ho.ref_alloc hl hb hfree hm

theorem View.growEntry (hl : Layout sb) (hv : View sb s ip D) (ho : Owned sb s.cache D F)
    (hb : b < sb.size) (hfree : marked sb s.cache b = false) {j : Fin NINDIRECT}
    (ha : (D (s.inode ip).inum).addrs indirect = a) (ha0 : a ≠ 0) (hj : word (s.cache a.toNat) j = 0) :
    View sb (s.addEntry sb a j b) ip D ∧ Owned sb (s.addEntry sb a j b).cache D F ∧
      Grown sb ip s (s.addEntry sb a j b) D D ∧ (D (s.inode ip).inum).ref (s.addEntry sb a j b).cache (.entry j) =
        BitVec.ofNat 32 b := by
  have hF : b ∉ F := fun hF => by simpa [hfree] using ho.exact.used_of_flight hF
  have hdata := ho.data_of_free hfree
  have hnat := hl.ofNat_toNat hb
  have hnz := ho.ofNat_ne_zero hl hb hfree
  have href : (D (s.inode ip).inum).ref s.cache (.addr indirect) = a := ha
  have hadata : sb.nmeta ≤ a.toNat := by
    have hd := ho.ref_data hv.alloc (t := .addr indirect) (by rw [href]; exact ha0)
    rw [href] at hd
    exact hd.1
  have hentry : (D (s.inode ip).inum).ref s.cache (.entry j) = 0 := by
    rw [ref_entry_of_ne (by rw [ha]; exact ha0), ha, hj]
  have ho1 := ho.alloc hl hb hfree
  have hdisk : ∀ m < sb.ninodes, dinode sb (s.addEntry sb a j b).cache m = dinode sb s.cache m := by
    intro m hm
    rw [State.addEntry_cache, dinode_data hl hm hadata, State.allocBlock_cache, dinode_data hl hm hdata, dinode_mark hl hm]
  have hself : ∀ t, (D (s.inode ip).inum).ref (s.addEntry sb a j b).cache t =
        if t = .entry j then BitVec.ofNat 32 b else (D (s.inode ip).inum).ref s.cache t := by
    intro t
    rw [State.addEntry_cache, ref_setWord ha ha0, State.allocBlock_cache, ho.ref_alloc hl hb hfree hv.alloc]
  -- the indirect block is not one of another slot, and is not the new block
  have hkeep : ∀ m t, Allocated sb D m → (D m).ref s.cache t ≠ 0 → (m ≠ (s.inode ip).inum ∨ t ≠ .addr indirect) →
      (s.addEntry sb a j b).cache
        ((D m).ref s.cache t).toNat = s.cache ((D m).ref s.cache t).toNat := by
    intro m t hm ht hne
    rw [State.addEntry_cache, update_of_ne, State.allocBlock_cache, ho.data_alloc hl hb hfree hm ht]
    intro he
    have hinj := ho.ref_inj hv.alloc hm (t := .addr indirect) (by rw [href]; exact ha0)
      ((BitVec.eq_of_toNat_eq he).trans href.symm)
    rcases hne with hne | hne
    · exact hne hinj.1
    · exact hne hinj.2
  have hother : ∀ m t, Allocated sb D m → m ≠ (s.inode ip).inum → (D m).ref (s.addEntry sb a j b).cache t =
    (D m).ref s.cache t :=
    fun m t hm hmn => ref_congr fun hne => hkeep m (.addr indirect) hm hne (Or.inl hmn)
  refine ⟨⟨hv.alloc, hv.copy, fun m hm hne => (hdisk m hm).trans (hv.disk m hm hne)⟩, ?_, ?_, ?_⟩
  · exact ho1.attachEntry hl hF hv.alloc hnat hnz ha ha0
      ((ho.ref_alloc hl hb hfree hv.alloc).trans hentry)
  · refine ⟨⟨⟨_, (update_eq_self ip s.inode).symm⟩, ⟨_, (update_eq_self _ D).symm⟩, hdisk⟩, ?_, ?_⟩
    · intro m hm k
      refine byteAt_congr (fun t => ?_) fun t hne ht => hkeep m t hm ht (Or.inr hne)
      by_cases hmn : m = (s.inode ip).inum
      · subst hmn
        rw [hself t]
        split
        · next ht =>
          subst ht
          refine Or.inr ⟨hentry, ?_⟩
          have hab : b ≠ a.toNat := by
            intro he
            exact ho.ref_ne_free hv.alloc (t := .addr indirect) (by rw [href]; exact ha0) hfree (by rw [href, he])
          rw [hnat, State.addEntry_cache, update_of_ne hab]
          exact update_self ..
        · exact Or.inl rfl
      · exact Or.inl (hother m t hm hmn)
    · intro m t hm ht
      by_cases hmn : m = (s.inode ip).inum
      · subst hmn
        rw [hself t, if_neg]
        rintro rfl
        exact ht hentry
      · exact hother m t hm hmn
  · rw [hself, if_pos rfl]

/-! ## `bmap` -/

theorem orAlloc_wp {f : BitVec 32 → M Unit} {Q : BitVec 32 → State → Prop} (hl : Layout sb)
    (ho : Owned sb s.cache D F) (hsome : a ≠ 0 → Q a s) (hfull : a = 0 → Full sb s.cache → Q 0 s)
    (hfree : a = 0 → ∀ b, b < sb.size → marked sb s.cache b = false → wp (f (BitVec.ofNat 32 b))
      (fun _ s' => Q (BitVec.ofNat 32 b) s') E (s.allocBlock sb b)) :
    wp (orAlloc sb a f) Q E s := by
  rw [orAlloc]
  split
  · next ha =>
    refine wp_bind.mpr (balloc_wp (fun hf => ?_) fun b hb hm => ?_)
    · exact hfull ha hf
    · rw [if_neg (ho.ofNat_ne_zero hl hb hm), wp_bind]
      exact hfree ha b hb hm
  · next ha => exact hsome ha

/-- What `bmap` returns: the block, or `0` if the disk is full. A block that is there is found without a change. -/
structure Mapped (sb : Superblock) (ip : Ip) (bn : ℕ) (s s' : State) (D D' : ℕ → Dinode) (F : Set ℕ)
    (a : BitVec 32) : Prop where
  view : View sb s' ip D'
  owned : Owned sb s'.cache D' F
  grown : Grown sb ip s s' D D'
  block : (D' (s.inode ip).inum).block s'.cache bn = a
  full : a = 0 → Full sb s'.cache
  same : (D (s.inode ip).inum).block s.cache bn ≠ 0 → s' = s ∧ D' = D

theorem bmapEntry_wp (hl : Layout sb) (hv : View sb s ip D) (ho : Owned sb s.cache D F) {j : Fin NINDIRECT}
    (hslot : fileSlot bn = some (.entry j)) (ha : (D (s.inode ip).inum).addrs indirect = a) (ha0 : a ≠ 0) :
    wp (do
        let d ← bread a.toNat
        orAlloc sb (word d j) fun w => do
          let d ← bread a.toNat
          setData a.toNat (setWord d j w)
          logWrite a.toNat)
      (fun w s' => Mapped sb ip bn s s' D D F w) E s := by
  have hblock : (D (s.inode ip).inum).block s.cache bn = word (s.cache a.toNat) j := by
    rw [block_of_slot hslot, ref_entry_of_ne (by rw [ha]; exact ha0), ha]
  simp only [bread, wp_bind, wp_get, wp_pure]
  refine orAlloc_wp hl ho (fun hne => ?_) (fun hz hfull => ?_) fun hz b hb hm => ?_
  · exact ⟨hv, ho, Grown.refl ip s D, hblock, fun h0 => absurd h0 hne, fun _ => ⟨rfl, rfl⟩⟩
  · exact ⟨hv, ho, Grown.refl ip s D, hblock.trans hz, fun _ => hfull, fun _ => ⟨rfl, rfl⟩⟩
  · obtain ⟨hv', ho', hg, hj⟩ := hv.growEntry hl ho hb hm ha ha0 hz
    simp only [setData, logWrite, wp_bind, wp_get, wp_pure, wp_modify, update_self]
    refine ⟨hv', ho', hg, ?_, fun h0 => absurd h0 (ho.ofNat_ne_zero hl hb hm), fun hne => ?_⟩
    · exact (block_of_slot hslot).trans hj
    · rw [hblock] at hne
      exact absurd hz hne

theorem bmap_wp (hl : Layout sb) (hv : View sb s ip D) (ho : Owned sb s.cache D F) (hbn : bn < MAXFILE) :
    wp (bmap sb ip bn) (fun a s' => ∃ D', Mapped sb ip bn s s' D D' F a) E s := by
  rw [bmap, wp_bind, wp_get]
  split
  · next h =>
    have hslot : fileSlot bn = some (.addr ⟨bn, Nat.lt_succ_of_lt h⟩) := by rw [fileSlot, dif_pos h]
    have hblock : ∀ (y : Dinode) (c : ℕ → Data), y.block c bn = y.addrs ⟨bn, Nat.lt_succ_of_lt h⟩ :=
      fun y c => block_of_slot hslot
    refine orAlloc_wp hl ho (fun hne => ?_) (fun hz hfull => ?_) fun hz b hb hm => ?_
    · exact ⟨D, hv, ho, Grown.refl ip s D, by rw [hblock, hv.copy], fun h0 => absurd h0 hne, fun _ => ⟨rfl, rfl⟩⟩
    · rw [hv.copy] at hz
      exact ⟨D, hv, ho, Grown.refl ip s D, by rw [hblock, hz], fun _ => hfull, fun _ => ⟨rfl, rfl⟩⟩
    · obtain ⟨D', hv', ho', hg, hD⟩ := hv.growAddr hl ho hb hm hz
      refine setCopy_wp ⟨D', hv', ho', hg, ?_, fun h0 => absurd h0 (ho.ofNat_ne_zero hl hb hm), fun hne => ?_⟩
      · rw [hblock, hD, setAddr_addrs, update_self]
      · rw [hblock, ← hv.copy] at hne
        exact absurd hz hne
  · next h =>
    have hin : bn - NDIRECT < NINDIRECT := by
      unfold MAXFILE at hbn
      omega
    have hslot : fileSlot bn = some (.entry ⟨bn - NDIRECT, hin⟩) := by rw [fileSlot, dif_neg h, dif_pos hin]
    rw [if_pos hin, wp_bind]
    refine orAlloc_wp hl ho (fun hne => ?_) (fun hz hfull => ?_) fun hz b hb hm => ?_
    · rw [if_neg hne]
      rw [hv.copy] at hne ⊢
      exact (bmapEntry_wp hl hv ho hslot rfl hne).mono fun a s' hmap => ⟨D, hmap⟩
    · rw [hv.copy] at hz
      have hblock : (D (s.inode ip).inum).block s.cache bn = 0 := by
        rw [block_of_slot hslot, Dinode.ref, if_pos hz]
      exact ⟨D, hv, ho, Grown.refl ip s D, hblock, fun _ => hfull, fun _ => ⟨rfl, rfl⟩⟩
    · obtain ⟨D', hv', ho', hg, hD⟩ := hv.growAddr hl ho hb hm hz
      have hne := ho.ofNat_ne_zero hl hb hm
      refine setCopy_wp ?_
      rw [if_neg hne]
      have haddr : (D' ((s.addAddr sb ip indirect b).inode ip).inum).addrs indirect = BitVec.ofNat 32 b := by
        rw [hg.inum, hD, setAddr_addrs, update_self]
      refine (bmapEntry_wp hl hv' ho' hslot haddr hne).mono fun a s' hmap => ⟨D', hmap.view, hmap.owned,
        hg.trans hmap.grown, hg.inum ▸ hmap.block, hmap.full, fun hold => ?_⟩
      rw [block_of_slot hslot, Dinode.ref, ← hv.copy, if_pos hz] at hold
      exact absurd rfl hold

end Xv6Boot.Kernel.Fs
