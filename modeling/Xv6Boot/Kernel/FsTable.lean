import Xv6Boot.Kernel.FsTrunc

/-! # Files and the inode table

Seen from above, an inode is a `Node`: its fields and its bytes, with no blocks. Between the steps of a system call
the file system is `Good`: the inodes on disk own their blocks and have all of them, and what the table holds of an
inode is what is on disk. Each function of `fs.c` is then described by what it does to the nodes and to the table.
-/

namespace Xv6Boot.Kernel.Fs
open Function Program

structure Node where
  type : BitVec 16
  major : BitVec 16
  minor : BitVec 16
  nlink : BitVec 16
  size : ℕ
  bytes : ℕ → Byte

def Node.free : Node := ⟨0, 0, 0, 0, 0, fun _ => 0⟩

/-- Bytes of `src` at `off`. -/
def Node.write (x : Node) (src : ℕ → Byte) (off tot : ℕ) : Node :=
  { x with
    size := max x.size (off + tot)
    bytes := fun k => if off ≤ k ∧ k < off + tot then src (k - off) else x.bytes k }

def Dinode.node (x : Dinode) (c : ℕ → Data) : Node :=
  ⟨x.type, x.major, x.minor, x.nlink, x.size.toNat, fun k => if k < x.size.toNat then x.byteAt c k else 0⟩

def nodes (sb : Superblock) (c : ℕ → Data) (n : ℕ) : Node :=
  if Allocated sb (dinode sb c) n then (dinode sb c n).node c else Node.free

structure Good (sb : Superblock) (F : Set ℕ) (s : State) : Prop where
  lt : ∀ ip, 0 < (s.inode ip).ref → (s.inode ip).inum < sb.ninodes
  nonneg : ∀ ip, 0 ≤ (s.inode ip).ref
  distinct : ∀ ip jp, 0 < (s.inode ip).ref → 0 < (s.inode jp).ref → (s.inode ip).inum = (s.inode jp).inum → ip = jp
  copy : ∀ ip, 0 < (s.inode ip).ref → (s.inode ip).valid = true → (s.inode ip).d = dinode sb s.cache (s.inode ip).inum
  live : ∀ ip, 0 < (s.inode ip).ref → (s.inode ip).valid = true → (s.inode ip).d.type ≠ 0
  owned : Owned sb s.cache (dinode sb s.cache) F
  filled : ∀ n, Allocated sb (dinode sb s.cache) n → (dinode sb s.cache n).Filled s.cache

variable {sb : Superblock} {F : Set ℕ} {s s' : State} {ip jp : Ip} {c c' : ℕ → Data} {D D' : ℕ → Dinode}
  {n m k : ℕ} {x y : Dinode} {E : String → Prop}

/-! ## Nodes -/

theorem nodes_of_alloc (h : Allocated sb (dinode sb c) n) : nodes sb c n = (dinode sb c n).node c := if_pos h

theorem nodes_of_free (h : ¬ Allocated sb (dinode sb c) n) : nodes sb c n = Node.free := if_neg h

theorem nodes_type (n : ℕ) : (nodes sb c n).type ≠ 0 ↔ Allocated sb (dinode sb c) n := by
  constructor
  · intro h
    by_contra hn
    rw [nodes_of_free hn] at h
    exact h rfl
  · intro h
    rw [nodes_of_alloc h]
    exact h.2

theorem node_congr (hx : y.type = x.type ∧ y.major = x.major ∧ y.minor = x.minor ∧ y.nlink = x.nlink ∧ y.size = x.size)
    (hb : ∀ k < x.size.toNat, y.byteAt c' k = x.byteAt c k) : y.node c' = x.node c := by
  obtain ⟨h1, h2, h3, h4, h5⟩ := hx
  unfold Dinode.node
  rw [h1, h2, h3, h4, h5]
  congr 1
  funext k
  split
  · next hk => exact hb k hk
  · rfl

theorem nodes_same (hd : m < sb.ninodes → dinode sb c' m = dinode sb c m)
    (hb : Allocated sb (dinode sb c) m → ∀ k, (dinode sb c m).byteAt c' k = (dinode sb c m).byteAt c k) :
    nodes sb c' m = nodes sb c m := by
  by_cases hm : m < sb.ninodes
  · by_cases ha : Allocated sb (dinode sb c) m
    · rw [nodes_of_alloc ha, nodes_of_alloc ⟨hm, by rw [hd hm]; exact ha.2⟩, hd hm]
      exact node_congr ⟨rfl, rfl, rfl, rfl, rfl⟩ fun k _ => hb ha k
    · rw [nodes_of_free ha, nodes_of_free]
      exact fun ha' => ha ⟨hm, hd hm ▸ ha'.2⟩
  · rw [nodes_of_free fun ha => hm ha.1, nodes_of_free fun ha => hm ha.1]

theorem nodes_update (hn : n < sb.ninodes) (hdisk : ∀ m < sb.ninodes, dinode sb c' m = if m = n then y else dinode sb c m)
    (hother : ∀ m, Allocated sb (dinode sb c) m → m ≠ n → ∀ k, (dinode sb c m).byteAt c' k = (dinode sb c m).byteAt c k) :
    nodes sb c' = update (nodes sb c) n (if y.type = 0 then Node.free else y.node c') := by
  funext m
  by_cases hmn : m = n
  · subst hmn
    have hd := hdisk m hn
    rw [if_pos rfl] at hd
    rw [update_self]
    split
    · next hy => exact nodes_of_free fun ha => ha.2 (by rw [hd, hy])
    · next hy => rw [nodes_of_alloc ⟨hn, by rw [hd]; exact hy⟩, hd]
  · rw [update_of_ne hmn]
    exact nodes_same (fun hm => by rw [hdisk m hm, if_neg hmn]) fun ha => hother m ha hmn

theorem Owned.congr_inodes (h : Owned sb c D F) (hD : ∀ n < sb.ninodes, D' n = D n) : Owned sb c D' F := by
  have hall : ∀ n, Allocated sb D' n ↔ Allocated sb D n :=
    fun n => and_congr_right fun hn => by rw [hD n hn]
  have hr : refs sb c D' = refs sb c D := refs_congr fun n t => ⟨hall n, fun hn => by rw [hD n hn.1]⟩
  exact ⟨hr ▸ h.exact, h.metadata⟩

theorem Filled.congr_ref (h : x.Filled c) (hs : y.size = x.size) (hr : ∀ t, x.ref c t ≠ 0 → y.ref c' t = x.ref c t) :
    y.Filled c' := by
  intro bn hbn
  rw [hs] at hbn
  have hne := h bn hbn
  obtain ⟨t, hslot, ht⟩ := slot_of_block hne
  rw [block_of_slot hslot, hr t (by rw [ht]; exact hne), ht]
  exact hne

theorem inode_of_update {i : Inode} (hi : s'.inode = update s.inode ip i) :
    s'.inode ip = i ∧ ∀ jp, jp ≠ ip → s'.inode jp = s.inode jp :=
  ⟨by rw [hi, update_self], fun jp hj => by rw [hi, update_of_ne hj]⟩

namespace Good

theorem view (hg : Good sb F s) (hr : 0 < (s.inode ip).ref) (hv : (s.inode ip).valid = true) :
    View sb s ip (dinode sb s.cache) where
  alloc := ⟨hg.lt ip hr, hg.copy ip hr hv ▸ hg.live ip hr hv⟩
  copy := hg.copy ip hr hv
  disk _ _ _ := rfl

theorem change (hg : Good sb F s) (hr : 0 < (s.inode ip).ref)
    (hent : s'.inode = update s.inode ip { s.inode ip with d := y })
    (hdisk : ∀ m < sb.ninodes, dinode sb s'.cache m = if m = (s.inode ip).inum then y else dinode sb s.cache m)
    (hown : Owned sb s'.cache D F) (hD : ∀ m < sb.ninodes, dinode sb s'.cache m = D m) (hy : y.type ≠ 0)
    (hfill : y.Filled s'.cache)
    (hother : ∀ m, Allocated sb (dinode sb s.cache) m → m ≠ (s.inode ip).inum → ∀ t, (dinode sb s.cache m).ref s.cache t ≠
      0 → (dinode sb s.cache m).ref s'.cache t = (dinode sb s.cache m).ref s.cache t) :
    Good sb F s' := by
  have hsame : ∀ jp, (s'.inode jp).inum = (s.inode jp).inum ∧ (s'.inode jp).ref = (s.inode jp).ref ∧
      (s'.inode jp).valid = (s.inode jp).valid := by
    intro jp
    rw [hent]
    by_cases hj : jp = ip
    · subst hj
      rw [update_self]
      exact ⟨rfl, rfl, rfl⟩
    · rw [update_of_ne hj]
      exact ⟨rfl, rfl, rfl⟩
  have hd : ∀ jp, jp ≠ ip → (s'.inode jp).d = (s.inode jp).d := fun jp hj => by rw [hent, update_of_ne hj]
  have hself : (s'.inode ip).d = y := by rw [hent, update_self]
  constructor
  · intro jp hj
    rw [(hsame jp).1]
    exact hg.lt jp ((hsame jp).2.1 ▸ hj)
  · intro jp
    rw [(hsame jp).2.1]
    exact hg.nonneg jp
  · intro jp kp hj hk he
    rw [(hsame jp).1, (hsame kp).1] at he
    exact hg.distinct jp kp ((hsame jp).2.1 ▸ hj) ((hsame kp).2.1 ▸ hk) he
  · intro jp hj hv
    rw [(hsame jp).2.1] at hj
    rw [(hsame jp).2.2] at hv
    rw [(hsame jp).1, hdisk _ (hg.lt jp hj)]
    by_cases hjp : jp = ip
    · subst hjp
      rw [hself, if_pos rfl]
    · rw [hd jp hjp, if_neg fun he => hjp (hg.distinct jp ip hj hr he)]
      exact hg.copy jp hj hv
  · intro jp hj hv
    rw [(hsame jp).2.1] at hj
    rw [(hsame jp).2.2] at hv
    by_cases hjp : jp = ip
    · subst hjp
      rw [hself]
      exact hy
    · rw [hd jp hjp]
      exact hg.live jp hj hv
  · exact hown.congr_inodes hD
  · intro m hm
    have hdm := hdisk m hm.1
    by_cases hmn : m = (s.inode ip).inum
    · rw [if_pos hmn] at hdm
      rw [hdm]
      exact hfill
    · rw [if_neg hmn] at hdm
      have ham : Allocated sb (dinode sb s.cache) m := ⟨hm.1, hdm ▸ hm.2⟩
      rw [hdm]
      exact Filled.congr_ref (hg.filled m ham) rfl (hother m ham hmn)

theorem setEntry {i : Inode} (hg : Good sb F s) (hc : s'.cache = s.cache) (hi : s'.inode = update s.inode ip i)
    (h0 : 0 ≤ i.ref) (hlt : 0 < i.ref → i.inum < sb.ninodes)
    (hcopy : 0 < i.ref → i.valid = true → i.d = dinode sb s.cache i.inum ∧ i.d.type ≠ 0)
    (hdist : 0 < i.ref → ∀ jp, jp ≠ ip → 0 < (s.inode jp).ref → (s.inode jp).inum ≠ i.inum) : Good sb F s' := by
  obtain ⟨hself, hother⟩ := inode_of_update hi
  constructor
  · intro jp hj
    by_cases hjp : jp = ip
    · subst hjp
      rw [hself] at hj ⊢
      exact hlt hj
    · rw [hother jp hjp] at hj ⊢
      exact hg.lt jp hj
  · intro jp
    by_cases hjp : jp = ip
    · subst hjp
      rw [hself]
      exact h0
    · rw [hother jp hjp]
      exact hg.nonneg jp
  · intro jp kp hj hk he
    by_cases hjp : jp = ip
    · by_cases hkp : kp = ip
      · rw [hjp, hkp]
      · subst hjp
        rw [hself] at hj he
        rw [hother kp hkp] at hk he
        exact absurd he.symm (hdist hj kp hkp hk)
    · by_cases hkp : kp = ip
      · subst hkp
        rw [hself] at hk he
        rw [hother jp hjp] at hj he
        exact absurd he (hdist hk jp hjp hj)
      · rw [hother jp hjp] at hj he
        rw [hother kp hkp] at hk he
        exact hg.distinct jp kp hj hk he
  · intro jp hj hv
    rw [hc]
    by_cases hjp : jp = ip
    · subst hjp
      rw [hself] at hj hv ⊢
      exact (hcopy hj hv).1
    · rw [hother jp hjp] at hj hv ⊢
      exact hg.copy jp hj hv
  · intro jp hj hv
    by_cases hjp : jp = ip
    · subst hjp
      rw [hself] at hj hv ⊢
      exact (hcopy hj hv).2
    · rw [hother jp hjp] at hj hv ⊢
      exact hg.live jp hj hv
  · rw [hc]
    exact hg.owned
  · rw [hc]
    exact hg.filled

end Good

/-! ## The table -/

/-- An inode that stays referenced stays in its place. -/
structure Kept (s s' : State) : Prop where
  inum : ∀ jp, 0 < (s.inode jp).ref → 0 < (s'.inode jp).ref → (s'.inode jp).inum = (s.inode jp).inum
  valid : ∀ jp, 0 < (s.inode jp).ref → 0 < (s'.inode jp).ref → (s.inode jp).valid = true → (s'.inode jp).valid = true

theorem Kept.trans {s'' : State} (h : Kept s s') (h' : Kept s' s'')
    (hmid : ∀ jp, 0 < (s.inode jp).ref → 0 < (s''.inode jp).ref → 0 < (s'.inode jp).ref) : Kept s s'' where
  inum jp h1 h2 := (h'.inum jp (hmid jp h1 h2) h2).trans (h.inum jp h1 (hmid jp h1 h2))
  valid jp h1 h2 hv := h'.valid jp (hmid jp h1 h2) h2 (h.valid jp h1 (hmid jp h1 h2) hv)

/-- One more reference, through `ip`, to inode `n`. -/
structure Took (s s' : State) (ip : Ip) (n : ℕ) : Prop where
  ref : ∀ jp, (s'.inode jp).ref = (s.inode jp).ref + if jp = ip then 1 else 0
  inum : (s'.inode ip).inum = n
  fresh : (s.inode ip).ref = 0 → (s'.inode ip).valid = false
  kept : Kept s s'

theorem find_none {p : Ip → Bool} (h : (List.finRange NINODE).find? p = none) (ip : Ip) : p ip = false := by
  have hn := List.find?_eq_none.mp h ip (List.mem_finRange ip)
  simpa using hn

theorem Good.addRef (hg : Good sb F s) (hr : 0 < (s.inode ip).ref) :
    Good sb F (s.setEntry ip { s.inode ip with ref := (s.inode ip).ref + 1 }) ∧
      Took s (s.setEntry ip { s.inode ip with ref := (s.inode ip).ref + 1 }) ip (s.inode ip).inum := by
  constructor
  · refine hg.setEntry rfl rfl (by simp only; omega) (fun _ => hg.lt ip hr)
      (fun _ hv => ⟨hg.copy ip hr hv, hg.live ip hr hv⟩) fun _ jp hj hjr he => hj (hg.distinct jp ip hjr hr he)
  · constructor
    · intro jp
      rw [State.setEntry_inode, update_apply]
      split
      · next hj => rw [hj]
      · exact (add_zero _).symm
    · rw [State.setEntry_inode, update_self]
    · intro h0
      omega
    · constructor
      · intro jp _ _
        rw [State.setEntry_inode, update_apply]
        split
        · next hj => rw [hj]
        · rfl
      · intro jp _ _ hv
        rw [State.setEntry_inode, update_apply]
        split
        · next hj => rw [hj] at hv; exact hv
        · exact hv

def State.Full (s : State) : Prop :=
  ∀ ip, (s.inode ip).ref ≠ 0

/-- `iget` finds neither inode `n` nor an empty place. -/
structure State.NoRoom (s : State) (n : ℕ) : Prop where
  full : s.Full
  absent : ∀ ip, 0 < (s.inode ip).ref → (s.inode ip).inum ≠ n

theorem Took.room (h : Took s s' ip n) (hg : Good sb F s) : ¬ s.NoRoom n := by
  intro hno
  have hr : 0 < (s.inode ip).ref := lt_of_le_of_ne (hg.nonneg ip) (hno.full ip).symm
  have hr' : 0 < (s'.inode ip).ref := by
    rw [h.ref, if_pos rfl]
    omega
  exact hno.absent ip hr ((h.kept.inum ip hr hr').symm.trans h.inum)

theorem iget_wp (hg : Good sb F s) (hn : n < sb.ninodes) (hE : s.NoRoom n → E "iget: no inodes") :
    wp (iget n) (fun ip s' => Good sb F s' ∧ s'.cache = s.cache ∧ Took s s' ip n) E s := by
  rw [iget, wp_bind, wp_get]
  cases hfind : (List.finRange NINODE).find? fun ip => decide (0 < (s.inode ip).ref ∧ (s.inode ip).inum = n) with
  | some ip =>
    have hp := List.find?_some hfind
    simp only [decide_eq_true_eq] at hp
    obtain ⟨hr, rfl⟩ := hp
    obtain ⟨hg', htook⟩ := hg.addRef hr
    exact wp_bind.mpr (setInode_wp ⟨hg', rfl, htook⟩)
  | none =>
    have hno : ∀ jp, 0 < (s.inode jp).ref → (s.inode jp).inum ≠ n := by
      intro jp hj he
      have hf := find_none hfind jp
      simp [hj, he] at hf
    simp only
    cases hempty : (List.finRange NINODE).find? fun ip => decide ((s.inode ip).ref = 0) with
    | some ip =>
      have hp := List.find?_some hempty
      simp only [decide_eq_true_eq] at hp
      have hne : ∀ jp, 0 < (s.inode jp).ref → jp ≠ ip := fun jp hj he => by
        rw [he, hp] at hj
        exact lt_irrefl _ hj
      refine wp_bind.mpr (setInode_wp ⟨?_, rfl, ?_⟩)
      · exact hg.setEntry rfl rfl (by simp) (fun _ => hn) (fun _ hv => by cases hv) fun _ jp _ hjr => hno jp hjr
      · constructor
        · intro jp
          rw [State.setEntry_inode, update_apply]
          split
          · next hj => rw [hj, hp]; rfl
          · exact (add_zero _).symm
        · rw [State.setEntry_inode, update_self]
        · intro _
          rw [State.setEntry_inode, update_self]
        · constructor
          · intro jp hj _
            rw [State.setEntry_inode, update_of_ne (hne jp hj)]
          · intro jp hj _ hv
            rw [State.setEntry_inode, update_of_ne (hne jp hj)]
            exact hv
    | none => exact hE ⟨fun ip => of_decide_eq_false (find_none hempty ip), hno⟩

theorem idup_wp (hg : Good sb F s) (hr : 0 < (s.inode ip).ref) :
    wp (idup ip) (fun r s' => r = ip ∧ Good sb F s' ∧ s'.cache = s.cache ∧ Took s s' ip (s.inode ip).inum) E s := by
  obtain ⟨hg', htook⟩ := hg.addRef hr
  exact wp_bind.mpr (setInode_wp ⟨rfl, hg', rfl, htook⟩)

/-- `ip` is locked and read; nothing else changes. -/
structure Locked (s s' : State) (ip : Ip) : Prop where
  cache : s'.cache = s.cache
  ref : ∀ jp, (s'.inode jp).ref = (s.inode jp).ref
  inum : ∀ jp, (s'.inode jp).inum = (s.inode jp).inum
  valid : (s'.inode ip).valid = true
  other : ∀ jp, jp ≠ ip → s'.inode jp = s.inode jp

theorem Locked.kept (h : Locked s s' ip) : Kept s s' where
  inum jp _ _ := h.inum jp
  valid jp _ _ hv := by
    by_cases hj : jp = ip
    · rw [hj]
      exact h.valid
    · rw [h.other jp hj]
      exact hv

theorem ilock_wp (hg : Good sb F s) (hr : 0 < (s.inode ip).ref)
    (hE : (nodes sb s.cache (s.inode ip).inum).type = 0 → E "ilock: no type") :
    wp (ilock sb ip) (fun _ s' => Good sb F s' ∧ Locked s s' ip ∧
      (nodes sb s.cache (s.inode ip).inum).type ≠ 0) E s := by
  have hlt := hg.lt ip hr
  rw [ilock, wp_bind, wp_get, if_neg (by omega)]
  by_cases hv : (s.inode ip).valid = true
  · rw [if_pos hv]
    refine ⟨hg, ⟨rfl, fun _ => rfl, fun _ => rfl, hv, fun _ _ => rfl⟩, ?_⟩
    exact (nodes_type _).mpr (hg.view hr hv).alloc
  · rw [if_neg hv]
    simp only [bread, wp_bind, wp_get, wp_pure]
    refine setInode_wp ?_
    split
    · next ht =>
      refine hE ?_
      rw [nodes_of_free fun ha => ha.2 ht]
      rfl
    · next ht =>
      have halloc : Allocated sb (dinode sb s.cache) (s.inode ip).inum := ⟨hlt, ht⟩
      refine ⟨?_, ?_, (nodes_type _).mpr halloc⟩
      · exact hg.setEntry rfl rfl hr.le (fun _ => hlt) (fun _ _ => ⟨rfl, ht⟩)
          fun _ jp hj hjr he => hj (hg.distinct jp ip hjr hr he)
      · refine ⟨rfl, fun jp => ?_, fun jp => ?_, ?_, fun jp hj => ?_⟩
        · rw [State.setEntry_inode, update_apply]
          split
          · next hj => rw [hj]
          · rfl
        · rw [State.setEntry_inode, update_apply]
          split
          · next hj => rw [hj]
          · rfl
        · rw [State.setEntry_inode, update_self]
        · rw [State.setEntry_inode, update_of_ne hj]

theorem iunlock_wp (hr : 0 < (s.inode ip).ref) : wp (iunlock ip) (fun _ s' => s' = s) E s := by
  rw [iunlock, wp_bind, wp_get, if_neg (by omega)]
  rfl

/-! ## Contents -/

structure SameTable (s s' : State) : Prop where
  inum : ∀ jp, (s'.inode jp).inum = (s.inode jp).inum
  ref : ∀ jp, (s'.inode jp).ref = (s.inode jp).ref
  valid : ∀ jp, (s'.inode jp).valid = (s.inode jp).valid

theorem SameTable.refl (s : State) : SameTable s s := ⟨fun _ => rfl, fun _ => rfl, fun _ => rfl⟩

theorem SameTable.kept (h : SameTable s s') : Kept s s' where
  inum jp _ _ := h.inum jp
  valid jp _ _ hv := (h.valid jp).trans hv

theorem sameTable_of_copy (hi : s'.inode = update s.inode ip { s.inode ip with d := y }) : SameTable s s' := by
  have h : ∀ jp, (s'.inode jp).inum = (s.inode jp).inum ∧ (s'.inode jp).ref = (s.inode jp).ref ∧
      (s'.inode jp).valid = (s.inode jp).valid := by
    intro jp
    rw [hi, update_apply]
    split
    · next hj => rw [hj]; exact ⟨rfl, rfl, rfl⟩
    · exact ⟨rfl, rfl, rfl⟩
  exact ⟨fun jp => (h jp).1, fun jp => (h jp).2.1, fun jp => (h jp).2.2⟩

def Node.slice (x : Node) (off n : ℕ) : List Byte := (List.range n).map fun i => x.bytes (off + i)

theorem slice_node {off l : ℕ} (hl : off + l ≤ x.size.toNat) : (x.node c).slice off l = x.slice c off l := by
  refine List.map_congr_left fun i hi => ?_
  have hi' := List.mem_range.mp hi
  exact if_pos (by omega)

theorem readi_kernel (hl : Layout sb) (hg : Good sb F s) (hr : 0 < (s.inode ip).ref) (hv : (s.inode ip).valid = true)
    (off n : BitVec 32) (hend : off.toNat + n.toNat ≤ (nodes sb s.cache (s.inode ip).inum).size) :
    wp (readi sb ip (fun _ => true) off n) (fun r s' => s' = s ∧
      r = ((n.toNat : ℤ), (nodes sb s.cache (s.inode ip).inum).slice off.toNat n.toNat)) E s := by
  have hview := hg.view hr hv
  have hnode := nodes_of_alloc hview.alloc
  rw [hnode] at hend ⊢
  have hrun := readi_slice hl hview hg.owned (hg.filled _ hview.alloc) hend
  rw [wp, hrun]
  exact ⟨rfl, by rw [slice_node hend]⟩

/-- Nothing but the bytes and the size differ. -/
structure SameFields (x y : Node) : Prop where
  type : y.type = x.type
  major : y.major = x.major
  minor : y.minor = x.minor
  nlink : y.nlink = x.nlink

theorem writei_good (hl : Layout sb) (hg : Good sb F s) (hr : 0 < (s.inode ip).ref) (hv : (s.inode ip).valid = true)
    (src : ℕ → Option Byte) (off n : BitVec 32) :
    wp (writei sb ip src off n) (fun r s' =>
      (r = -1 ∧ s' = s ∧ ((nodes sb s.cache (s.inode ip).inum).size < off.toNat ∨
        MAXFILE * BSIZE < off.toNat + n.toNat)) ∨
      (off.toNat ≤ (nodes sb s.cache (s.inode ip).inum).size ∧ off.toNat + n.toNat ≤ MAXFILE * BSIZE ∧
        ∃ (tot e : ℕ) (y : Node), r = tot ∧ tot ≤ n.toNat ∧ Good sb F s' ∧ SameTable s s' ∧
        nodes sb s'.cache = update (nodes sb s.cache) (s.inode ip).inum y ∧
        SameFields (nodes sb s.cache (s.inode ip).inum) y ∧
        y.size = max (nodes sb s.cache (s.inode ip).inum).size (off.toNat + tot) ∧
        (∀ k, (k < off.toNat + tot ∨ off.toNat + e ≤ k) → y.bytes k =
          ((nodes sb s.cache (s.inode ip).inum).write (fun i => (src i).getD 0) off.toNat tot).bytes k) ∧
        (∀ i < tot, (src i).isSome = true) ∧ e ≤ n.toNat ∧ (e = tot ∨ ∃ i < n.toNat, src i = none) ∧
        (tot < n.toNat → Stuck sb s'.cache (nodes sb s.cache (s.inode ip).inum).size (off.toNat + tot) ∨
          ∃ i < n.toNat, src i = none))) E s := by
  have hview := hg.view hr hv
  have hnode := nodes_of_alloc hview.alloc
  rw [hnode]
  refine (writei_spec hl hview hg.owned (hg.filled _ hview.alloc) src off n).mono fun r s' hpost => ?_
  rcases hpost with hbad | ⟨hoff, hend, tot, e, D', hr', htot, he, hv', ho', hst, hdirty, hshort, -⟩
  · exact Or.inl hbad
  · obtain ⟨f, hDf⟩ := hst.inode
    have hD' : ∀ m, m ≠ (s.inode ip).inum → D' m = dinode sb s.cache m := fun m hm => by
      rw [hDf, update_of_ne hm]
    have hself : D' (s.inode ip).inum = { dinode sb s.cache (s.inode ip).inum with
        addrs := f, size := BitVec.ofNat 32 (max (dinode sb s.cache (s.inode ip).inum).size.toNat (off.toNat + tot)) } := by
      rw [hDf, update_self]
    have htype : (D' (s.inode ip).inum).type ≠ 0 := by
      rw [hself]
      exact hview.alloc.2
    refine Or.inr ⟨hoff, hend, tot, e, (D' (s.inode ip).inum).node s'.cache, hr', htot, ?_, sameTable_of_copy hst.entry, ?_,
      ?_, hst.size, fun k hk => ?_, hst.readable, he, hdirty, hshort⟩
    · refine hg.change hr hst.entry hst.disk ho' (fun m hm => ?_) htype hst.filled fun m hm hmn t ht => ?_
      · rw [hst.disk m hm]
        split
        · next hmn => rw [hmn]
        · next hmn => exact (hD' m hmn).symm
      · rw [← hD' m hmn]
        exact (hst.ref m t hm ht).trans (by rw [hD' m hmn])
    · rw [nodes_update hview.alloc.1 hst.disk fun m hm hmn k => ?_, if_neg htype]
      rw [← hD' m hmn, hst.other m hm hmn k, hD' m hmn]
    · rw [hself]
      exact ⟨rfl, rfl, rfl, rfl⟩
    · simp only [Dinode.node, Node.write]
      rw [hst.size, hst.bytes k hk]
      by_cases hin : off.toNat ≤ k ∧ k < off.toNat + tot
      · rw [if_pos hin, if_pos hin, if_pos (by omega)]
      · rw [if_neg hin, if_neg hin]
        by_cases hk' : k < (dinode sb s.cache (s.inode ip).inum).size.toNat
        · rw [if_pos hk', if_pos (by omega)]
        · rw [if_neg hk', if_neg (by omega)]

theorem writei_kernel (hl : Layout sb) (hg : Good sb F s) (hr : 0 < (s.inode ip).ref) (hv : (s.inode ip).valid = true)
    (src : ℕ → Byte) (off n : BitVec 32) :
    wp (writei sb ip (fun i => some (src i)) off n) (fun r s' =>
      (r = -1 ∧ s' = s ∧ ((nodes sb s.cache (s.inode ip).inum).size < off.toNat ∨
        MAXFILE * BSIZE < off.toNat + n.toNat)) ∨
      (off.toNat ≤ (nodes sb s.cache (s.inode ip).inum).size ∧ off.toNat + n.toNat ≤ MAXFILE * BSIZE ∧
        ∃ tot : ℕ, r = tot ∧ tot ≤ n.toNat ∧ Good sb F s' ∧ SameTable s s' ∧ nodes sb s'.cache = update (nodes sb s.cache)
          (s.inode ip).inum
          ((nodes sb s.cache (s.inode ip).inum).write src off.toNat tot) ∧
        (tot < n.toNat → Stuck sb s'.cache (nodes sb s.cache (s.inode ip).inum).size (off.toNat + tot)))) E s := by
  refine (writei_good hl hg hr hv _ off n).mono fun r s' hpost => hpost.imp_right ?_
  rintro ⟨hoff, hend, tot, e, y, hr', htot, hg', htab, hnodes, hf, hsize, hbytes, _, _, hdirty, hshort⟩
  have hsome : ¬ ∃ i < n.toNat, some (src i) = none := by
    rintro ⟨i, _, hi⟩
    cases hi
  obtain rfl : e = tot := hdirty.resolve_right hsome
  have hy : y = (nodes sb s.cache (s.inode ip).inum).write src off.toNat e := by
    have hb : y.bytes = ((nodes sb s.cache (s.inode ip).inum).write src off.toNat e).bytes :=
      funext fun k => hbytes k (by omega)
    cases y
    simp only [Node.write] at hsize hb ⊢
    simp only [Node.mk.injEq]
    exact ⟨hf.type, hf.major, hf.minor, hf.nlink, hsize, hb⟩
  exact ⟨hoff, hend, e, hr', htot, hg', htab, hy ▸ hnodes, fun hlt => (hshort hlt).resolve_right hsome⟩

theorem itrunc_good (hl : Layout sb) (hg : Good sb F s) (hr : 0 < (s.inode ip).ref) (hv : (s.inode ip).valid = true) :
    wp (itrunc sb ip) (fun _ s' => Good sb F s' ∧ SameTable s s' ∧
      nodes sb s'.cache = update (nodes sb s.cache) (s.inode ip).inum
        { nodes sb s.cache (s.inode ip).inum with size := 0, bytes := fun _ => 0 } ∧
      ∀ i, (s'.inode ip).d.addrs i = 0) E s := by
  have hview := hg.view hr hv
  have hnode := nodes_of_alloc hview.alloc
  refine (itrunc_wp hl hview hg.owned).mono fun _ s' ⟨D', hv', ho', hst⟩ => ?_
  have hD' : ∀ m, m ≠ (s.inode ip).inum → D' m = dinode sb s.cache m := fun m hm => by
    rw [hst.inode, update_of_ne hm]
  have hself : D' (s.inode ip).inum = { dinode sb s.cache (s.inode ip).inum with addrs := fun _ => 0, size := 0 } := by
    rw [hst.inode, update_self]
  have htype : (D' (s.inode ip).inum).type ≠ 0 := by
    rw [hself]
    exact hview.alloc.2
  have href : ∀ m, Allocated sb (dinode sb s.cache) m → ∀ t,
      (dinode sb s.cache m).ref s'.cache t = (dinode sb s.cache m).ref s.cache t :=
    fun m hm t => ref_congr fun hne => hst.data _ (hg.owned.ref_data hm (t := .addr indirect) hne).1
  refine ⟨?_, sameTable_of_copy hst.entry, ?_, fun i => ?_⟩
  · refine hg.change hr hst.entry hst.disk ho' (fun m hm => ?_) htype (fun bn hbn => ?_) fun m hm _ t _ => href m hm t
    · rw [hst.disk m hm]
      split
      · next hmn => rw [hmn]
      · next hmn => exact (hD' m hmn).symm
    · rw [hself] at hbn
      exact absurd hbn (Nat.not_lt_zero _)
  · rw [nodes_update hview.alloc.1 hst.disk fun m hm hmn k => ?_, if_neg htype, hself, hnode]
    · simp [Dinode.node]
    · exact byteAt_congr (fun t => Or.inl (href m hm t)) fun t _ ht => hst.data _ (hg.owned.ref_data hm ht).1
  · rw [hst.entry, update_self, hself]

/-! ## `iput` and `ialloc` -/

/-- One reference fewer, through `ip`. -/
structure Dropped (s s' : State) (ip : Ip) : Prop where
  ref : ∀ jp, (s'.inode jp).ref = (s.inode jp).ref - if jp = ip then 1 else 0
  kept : Kept s s'

theorem dropped_of_update {i : Inode} (hr : 0 < (s.inode ip).ref) (hi : s'.inode = update s.inode ip i)
    (href : i.ref = (s.inode ip).ref - 1) (hinum : i.inum = (s.inode ip).inum)
    (hvalid : 1 < (s.inode ip).ref → i.valid = (s.inode ip).valid) : Dropped s s' ip := by
  obtain ⟨hself, hother⟩ := inode_of_update hi
  refine ⟨fun jp => ?_, fun jp _ _ => ?_, fun jp _ hj' hv => ?_⟩
  · split
    · next hj => rw [hj, hself, href]
    · next hj => rw [hother jp hj, sub_zero]
  · by_cases hj : jp = ip
    · rw [hj, hself, hinum]
    · rw [hother jp hj]
  · by_cases hj : jp = ip
    · subst hj
      rw [hself] at hj' ⊢
      rw [hvalid (by omega)]
      exact hv
    · rw [hother jp hj]
      exact hv

theorem Good.freed (hl : Layout sb) (hg : Good sb F s) (hr : 0 < (s.inode ip).ref) (hv : (s.inode ip).valid = true)
    (haddrs : ∀ i, (s.inode ip).d.addrs i = 0) {i : Inode} (hi : s'.inode = update s.inode ip i) (h0 : i.ref = 0)
    (hc : s'.cache = Fs.setDinode sb s.cache (s.inode ip).inum { (s.inode ip).d with type := 0 }) :
    Good sb F s' ∧ nodes sb s'.cache = update (nodes sb s.cache) (s.inode ip).inum Node.free := by
  have hview := hg.view hr hv
  obtain ⟨hself, hother⟩ := inode_of_update hi
  have hpos : ∀ jp, 0 < (s'.inode jp).ref → jp ≠ ip ∧ s'.inode jp = s.inode jp ∧ 0 < (s.inode jp).ref := by
    intro jp hj
    have hjp : jp ≠ ip := by
      rintro rfl
      rw [hself, h0] at hj
      exact lt_irrefl _ hj
    exact ⟨hjp, hother jp hjp, hother jp hjp ▸ hj⟩
  have hdisk : ∀ m, dinode sb s'.cache m =
      if m = (s.inode ip).inum then { (s.inode ip).d with type := 0 } else dinode sb s.cache m := by
    intro m
    rw [hc, dinode_setDinode]
  have hkeep : ∀ m, Allocated sb (dinode sb s'.cache) m → m ≠ (s.inode ip).inum ∧
      dinode sb s'.cache m = dinode sb s.cache m := by
    rintro m ⟨hm, ht⟩
    by_cases hmn : m = (s.inode ip).inum
    · rw [hdisk, if_pos hmn] at ht
      exact absurd rfl ht
    · exact ⟨hmn, by rw [hdisk, if_neg hmn]⟩
  refine ⟨⟨?_, ?_, ?_, ?_, ?_, ?_, ?_⟩, ?_⟩
  · intro jp hj
    obtain ⟨_, he, hj'⟩ := hpos jp hj
    rw [he]
    exact hg.lt jp hj'
  · intro jp
    by_cases hj : jp = ip
    · rw [hj, hself, h0]
    · rw [hother jp hj]
      exact hg.nonneg jp
  · intro jp kp hj hk he
    obtain ⟨_, hej, hj'⟩ := hpos jp hj
    obtain ⟨_, hek, hk'⟩ := hpos kp hk
    rw [hej, hek] at he
    exact hg.distinct jp kp hj' hk' he
  · intro jp hj hv'
    obtain ⟨hne, he, hj'⟩ := hpos jp hj
    rw [he] at hv' ⊢
    rw [hdisk, if_neg fun hin => hne (hg.distinct jp ip hj' hr hin)]
    exact hg.copy jp hj' hv'
  · intro jp hj hv'
    obtain ⟨_, he, hj'⟩ := hpos jp hj
    rw [he] at hv' ⊢
    exact hg.live jp hj' hv'
  · have hown : Owned sb s'.cache (update (dinode sb s.cache) (s.inode ip).inum
        { (s.inode ip).d with type := 0 }) F := by
      rw [hc]
      have hempty : ∀ i, (dinode sb s.cache (s.inode ip).inum).addrs i = 0 := fun i => hview.copy ▸ haddrs i
      have hset := hg.owned.setEmpty (n := (s.inode ip).inum) (x := { (s.inode ip).d with type := 0 }) (Or.inr hempty)
        haddrs
      exact hset.setDinode hl hview.alloc.1
    exact hown.congr_inodes fun m _ => by rw [hdisk, update_apply]
  · intro m hm
    obtain ⟨hmn, he⟩ := hkeep m hm
    have ham : Allocated sb (dinode sb s.cache) m := ⟨hm.1, he ▸ hm.2⟩
    rw [he]
    refine Filled.congr_ref (hg.filled m ham) rfl fun t _ => ?_
    rw [hc]
    exact hg.owned.ref_setDinode hl hview.alloc.1 ham
  · rw [nodes_update hview.alloc.1 (fun m _ => hdisk m), if_pos rfl]
    intro m hm _ k
    rw [hc]
    exact hg.owned.byteAt_setDinode hl hview.alloc.1 hm

theorem iput_good (hl : Layout sb) (hg : Good sb F s) (hr : 0 < (s.inode ip).ref) :
    wp (iput sb ip) (fun _ s' => Good sb F s' ∧ Dropped s s' ip ∧
      nodes sb s'.cache =
        if (s.inode ip).ref = 1 ∧ (s.inode ip).valid = true ∧ (nodes sb s.cache (s.inode ip).inum).nlink = 0
        then update (nodes sb s.cache) (s.inode ip).inum Node.free else nodes sb s.cache) E s := by
  have hnlink : (s.inode ip).valid = true → (nodes sb s.cache (s.inode ip).inum).nlink = (s.inode ip).d.nlink := by
    intro hv
    rw [nodes_of_alloc (hg.view hr hv).alloc, hg.copy ip hr hv]
    rfl
  rw [iput, wp_bind, wp_get]
  by_cases hcond : (s.inode ip).ref = 1 ∧ (s.inode ip).valid = true ∧ (s.inode ip).d.nlink = 0
  · obtain ⟨h1, hv, hz⟩ := hcond
    simp only [h1, hv, hz, and_self, if_true, hnlink hv]
    refine (itrunc_good hl hg hr hv).bind fun _ s₁ ⟨hg₁, htab, hnodes, haddrs⟩ => ?_
    have hr₁ : 0 < (s₁.inode ip).ref := by rw [htab.ref]; exact hr
    have hv₁ : (s₁.inode ip).valid = true := by rw [htab.valid]; exact hv
    refine wp_bind.mpr (setCopy_wp (wp_bind.mpr (iupdate_wp (wp_bind.mpr (setInode_wp (setInode_wp ?_))))))
    simp only [State.setEntry_inode, State.writeInode_inode, update_self]
    have hfin : ∀ s' : State, s'.inode = update s₁.inode ip ⟨(s₁.inode ip).inum, (s₁.inode ip).ref - 1, false,
          { (s₁.inode ip).d with type := 0 }⟩ →
        s'.cache = Fs.setDinode sb s₁.cache (s₁.inode ip).inum { (s₁.inode ip).d with type := 0 } →
        Good sb F s' ∧ Dropped s s' ip ∧
          nodes sb s'.cache = update (nodes sb s.cache) (s.inode ip).inum Node.free := by
      intro s' hi hc
      obtain ⟨hg', hnodes'⟩ := hg₁.freed hl hr₁ hv₁ haddrs hi (by simp only; rw [htab.ref, h1]; rfl) hc
      refine ⟨hg', ?_, ?_⟩
      · have hd := dropped_of_update hr₁ hi rfl rfl fun hlt => absurd hlt (by rw [htab.ref, h1]; exact lt_irrefl _)
        refine ⟨fun jp => ?_, htab.kept.trans hd.kept fun jp hj _ => ?_⟩
        · rw [hd.ref, htab.ref]
        · rw [htab.ref]
          exact hj
      · rw [hnodes', hnodes, htab.inum, update_idem]
    exact hfin _ (by simp) rfl
  · have hcond' : ¬ ((s.inode ip).ref = 1 ∧ (s.inode ip).valid = true ∧
        (nodes sb s.cache (s.inode ip).inum).nlink = 0) := by
      rintro ⟨h1, hv, hz⟩
      exact hcond ⟨h1, hv, by rw [← hnlink hv, hz]⟩
    rw [if_neg hcond']
    simp only [hcond, if_false]
    refine setInode_wp ⟨?_, dropped_of_update hr rfl rfl rfl fun _ => rfl, rfl⟩
    refine hg.setEntry rfl rfl (by simp only; omega) (fun _ => hg.lt ip hr)
      (fun _ hv => ⟨hg.copy ip hr hv, hg.live ip hr hv⟩) fun _ jp hj hjr he => hj (hg.distinct jp ip hjr hr he)

/-- One entry of the table in use. -/
theorem Good.of_one (h0 : ∀ jp, jp ≠ ip → (s.inode jp).ref = 0) (hr : 0 ≤ (s.inode ip).ref)
    (hlt : (s.inode ip).inum < sb.ninodes) (hcopy : (s.inode ip).d = dinode sb s.cache (s.inode ip).inum)
    (ht : (s.inode ip).d.type ≠ 0) (ho : Owned sb s.cache (dinode sb s.cache) F)
    (hf : ∀ n, Allocated sb (dinode sb s.cache) n → (dinode sb s.cache n).Filled s.cache) : Good sb F s := by
  have hone : ∀ jp, 0 < (s.inode jp).ref → jp = ip := fun jp hj => by_contra fun hne => hj.ne' (h0 jp hne)
  refine ⟨fun jp hj => hone jp hj ▸ hlt, fun jp => ?_, fun jp kp hj hk _ => (hone jp hj).trans (hone kp hk).symm,
    fun jp hj _ => hone jp hj ▸ hcopy, fun jp hj _ => hone jp hj ▸ ht, ho, hf⟩
  by_cases hj : jp = ip
  · exact hj ▸ hr
  · exact (h0 jp hj).ge

theorem emptyFile_good : Good smallSb ∅ emptyFileState := by
  refine .of_one (fun jp (hj : jp ≠ ⟨0, by decide⟩) => ?_) (by decide) (by decide) ?_ (by decide)
    (firstBlocks_owned (f := fun _ => 0) (by decide) (by decide) (by decide) (by decide) (by decide))
    (firstBlocks_filled (by decide))
  · rw [show emptyFileState.inode jp = ⟨0, 0, false, Dinode.zero⟩ from if_neg hj]
  · exact ((getDinode_putDinode _ 1 1 emptyFile).trans (if_pos rfl)).symm

end Xv6Boot.Kernel.Fs
