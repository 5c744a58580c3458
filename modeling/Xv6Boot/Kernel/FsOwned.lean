import Xv6Boot.Foundations.Ownership
import Xv6Boot.Kernel.FsInode

/-! # Which blocks belong to which inode

`D` gives the inode of each number as the kernel sees it: the copy in memory where there is one that is not yet
written back, the inode on disk otherwise. The slots of an inode are its addresses and the entries of its indirect
block; the free map is to be exact about the blocks in the slots of all allocated inodes.
-/

namespace Xv6Boot.Kernel.Fs
open Function Ownership

inductive Slot where
  | addr (i : Fin (NDIRECT + 1))
  | entry (j : Fin NINDIRECT)
  deriving DecidableEq

def Dinode.ref (x : Dinode) (c : ℕ → Data) : Slot → BitVec 32
  | .addr i => x.addrs i
  | .entry j => if x.addrs indirect = 0 then 0 else word (c (x.addrs indirect).toNat) j

def fileSlot (bn : ℕ) : Option Slot :=
  if h : bn < NDIRECT then some (.addr ⟨bn, Nat.lt_succ_of_lt h⟩)
  else if h : bn - NDIRECT < NINDIRECT then some (.entry ⟨bn - NDIRECT, h⟩)
  else none

/-- The number of a block of the file, `0` if there is none. -/
def Dinode.block (x : Dinode) (c : ℕ → Data) (bn : ℕ) : BitVec 32 :=
  match fileSlot bn with
  | some t => x.ref c t
  | none => 0

/-- The file as an array of bytes, `0` where no block is allocated. -/
def Dinode.byteAt (x : Dinode) (c : ℕ → Data) (k : ℕ) : Byte :=
  if x.block c (k / BSIZE) = 0 then 0 else c (x.block c (k / BSIZE)).toNat (k % BSIZE)

def Dinode.Filled (x : Dinode) (c : ℕ → Data) : Prop := ∀ bn, bn * BSIZE < x.size.toNat → x.block c bn ≠ 0

section
variable (sb : Superblock)

def Allocated (D : ℕ → Dinode) (n : ℕ) : Prop := n < sb.ninodes ∧ (D n).type ≠ 0

instance (D : ℕ → Dinode) (n : ℕ) : Decidable (Allocated sb D n) := inferInstanceAs (Decidable (_ ∧ _))

def refs (c : ℕ → Data) (D : ℕ → Dinode) (p : ℕ × Slot) : Option ℕ :=
  if Allocated sb D p.1 ∧ (D p.1).ref c p.2 ≠ 0 then some ((D p.1).ref c p.2).toNat else none

structure Owned (c : ℕ → Data) (D : ℕ → Dinode) (F : Set ℕ) : Prop where
  exact : Exact (refs sb c D) (Set.Ico sb.nmeta sb.size) (fun b => marked sb c b = true) F
  metadata : ∀ b < sb.nmeta, marked sb c b = true

end

variable {sb : Superblock} {c c' : ℕ → Data} {D D' : ℕ → Dinode} {F : Set ℕ} {b n m bn : ℕ} {t : Slot}
  {x y : Dinode} {a w : BitVec 32} {i : Fin (NDIRECT + 1)} {j : Fin NINDIRECT}

/-! ## Slots -/

theorem fileSlot_inj {bn bn' : ℕ} (h : fileSlot bn = some t) (h' : fileSlot bn' = some t) : bn = bn' := by
  unfold fileSlot at h h'
  split at h <;> split at h'
  · have he := h.trans h'.symm
    simpa using he
  · split at h'
    · have he := h.trans h'.symm
      simp at he
    · cases h'
  · split at h
    · have he := h.trans h'.symm
      simp at he
    · cases h
  · split at h
    · split at h'
      · have he := h.trans h'.symm
        simp only [Option.some.injEq, Slot.entry.injEq, Fin.mk.injEq] at he
        omega
      · cases h'
    · cases h

theorem fileSlot_ne_indirect : fileSlot bn ≠ some (.addr indirect) := by
  unfold fileSlot
  split
  · next h =>
    intro he
    simp only [Option.some.injEq, Slot.addr.injEq, Fin.ext_iff] at he
    rw [he] at h
    exact absurd h (Nat.lt_irrefl NDIRECT)
  · split <;> simp

theorem exists_fileSlot (h : bn < MAXFILE) : ∃ t, fileSlot bn = some t := by
  unfold fileSlot
  unfold MAXFILE at h
  split
  · exact ⟨_, rfl⟩
  · rw [dif_pos (by omega)]
    exact ⟨_, rfl⟩

theorem block_of_slot (h : fileSlot bn = some t) : x.block c bn = x.ref c t := by
  rw [Dinode.block, h]

theorem slot_of_block (h : x.block c bn ≠ 0) : ∃ t, fileSlot bn = some t ∧ x.ref c t = x.block c bn := by
  unfold Dinode.block at h ⊢
  split at h
  · next t ht => exact ⟨t, ht, rfl⟩
  · exact absurd rfl h

theorem block_congr (h : ∀ t, y.ref c' t = x.ref c t) : y.block c' bn = x.block c bn := by
  unfold Dinode.block
  split
  · exact h _
  · rfl

theorem ref_entry_of_ne (h : x.addrs indirect ≠ 0) : x.ref c (.entry j) = word (c (x.addrs indirect).toNat) j := by
  rw [Dinode.ref, if_neg h]

theorem ref_congr (h : x.addrs indirect ≠ 0 → c' (x.addrs indirect).toNat = c (x.addrs indirect).toNat) :
    x.ref c' t = x.ref c t := by
  cases t with
  | addr i => rfl
  | entry j =>
    by_cases hne : x.addrs indirect = 0
    · rw [Dinode.ref, Dinode.ref, if_pos hne, if_pos hne]
    · rw [Dinode.ref, Dinode.ref, if_neg hne, if_neg hne, h hne]

theorem ref_congr_addrs (h : y.addrs = x.addrs) : y.ref c t = x.ref c t := by
  cases t with
  | addr i => exact congrFun h i
  | entry j => rw [Dinode.ref, Dinode.ref, h]

theorem setAddr_addrs : (x.setAddr i a).addrs = update x.addrs i a := rfl

theorem ref_setAddr_direct (hi : i ≠ indirect) : (x.setAddr i a).ref c t = if t = .addr i then a else x.ref c t := by
  cases t with
  | addr k =>
    rw [Dinode.ref, setAddr_addrs, update_apply]
    simp [Dinode.ref]
  | entry j =>
    rw [Dinode.ref, setAddr_addrs, update_of_ne hi.symm]
    simp [Dinode.ref]

theorem ref_setAddr_indirect (hx : x.addrs indirect = 0) (hz : ∀ j, word (c a.toNat) j = 0) :
    (x.setAddr indirect a).ref c t = if t = .addr indirect then a else x.ref c t := by
  cases t with
  | addr k =>
    rw [Dinode.ref, setAddr_addrs, update_apply]
    simp [Dinode.ref]
  | entry j =>
    rw [Dinode.ref, setAddr_addrs, update_self, hz, ite_self, Dinode.ref, if_pos hx, if_neg (by simp)]

theorem ref_setWord (hx : x.addrs indirect = a) (ha : a ≠ 0) :
    x.ref (update c a.toNat (setWord (c a.toNat) j w)) t = if t = .entry j then w else x.ref c t := by
  cases t with
  | addr k => simp [Dinode.ref]
  | entry k =>
    rw [Dinode.ref, hx, if_neg ha, update_self, word_setWord, Dinode.ref, hx, if_neg ha]
    simp [Fin.ext_iff]

/-! ## References -/

theorem refs_eq_some :
    refs sb c D (n, t) = some b ↔ Allocated sb D n ∧ (D n).ref c t ≠ 0 ∧ ((D n).ref c t).toNat = b := by
  rw [refs]
  split
  · next h =>
    rw [Option.some.injEq]
    exact ⟨fun he => ⟨h.1, h.2, he⟩, fun he => he.2.2⟩
  · next h =>
    constructor
    · intro he
      cases he
    · intro he
      exact absurd ⟨he.1, he.2.1⟩ h

theorem refs_of_ref (hn : Allocated sb D n) (h : (D n).ref c t ≠ 0) : refs sb c D (n, t) = some ((D n).ref c t).toNat :=
  refs_eq_some.mpr ⟨hn, h, rfl⟩

theorem refs_eq_none (h : (D n).ref c t = 0) : refs sb c D (n, t) = none := by
  rw [refs, if_neg]
  exact fun hp => hp.2 h

theorem refs_eq (hall : Allocated sb D' n ↔ Allocated sb D n) (h : (D' n).ref c' t = (D n).ref c t) :
    refs sb c' D' (n, t) = refs sb c D (n, t) := by
  rw [refs, refs]
  simp only [hall, h]

theorem refs_congr (h : ∀ n t, (Allocated sb D' n ↔ Allocated sb D n) ∧
    (Allocated sb D n → (D' n).ref c' t = (D n).ref c t)) : refs sb c' D' = refs sb c D := by
  funext ⟨n, t⟩
  by_cases hn : Allocated sb D n
  · exact refs_eq (h n t).1 ((h n t).2 hn)
  · rw [refs, refs, if_neg (fun hp => hn ((h n t).1.mp hp.1)), if_neg (fun hp => hn hp.1)]

theorem refs_update (hn : Allocated sb D n) (hall : ∀ m, Allocated sb D' m ↔ Allocated sb D m) (ha : a ≠ 0)
    (hother : ∀ m, m ≠ n → Allocated sb D m → ∀ t, (D' m).ref c' t = (D m).ref c t)
    (hself : ∀ t', (D' n).ref c' t' = if t' = t then a else (D n).ref c t') :
    refs sb c' D' = update (refs sb c D) (n, t) (some a.toNat) := by
  funext ⟨m, t'⟩
  by_cases hm : m = n
  · subst hm
    by_cases ht : t' = t
    · subst ht
      rw [update_self]
      have hr := hself t'
      rw [if_pos rfl] at hr
      exact refs_eq_some.mpr ⟨(hall m).mpr hn, by rw [hr]; exact ha, by rw [hr]⟩
    · rw [update_of_ne (fun he => ht (Prod.ext_iff.mp he).2)]
      exact refs_eq (hall m) (by rw [hself t', if_neg ht])
  · rw [update_of_ne (fun he => hm (Prod.ext_iff.mp he).1)]
    by_cases hmd : Allocated sb D m
    · exact refs_eq (hall m) (hother m hm hmd t')
    · rw [refs, refs, if_neg (fun hp => hmd ((hall m).mp hp.1)), if_neg (fun hp => hmd hp.1)]

theorem allocated_update (hx : x.type = 0 ↔ (D n).type = 0) : Allocated sb (update D n x) m ↔ Allocated sb D m := by
  unfold Allocated
  by_cases hm : m = n
  · subst hm
    rw [update_self, ne_eq, hx]
  · rw [update_of_ne hm]

namespace Owned

section
variable (h : Owned sb c D F)
include h

theorem ref_data (hn : Allocated sb D n) (ht : (D n).ref c t ≠ 0) :
    sb.nmeta ≤ ((D n).ref c t).toNat ∧ ((D n).ref c t).toNat < sb.size :=
  h.exact.ref_area _ _ (refs_of_ref hn ht)

theorem ref_marked (hn : Allocated sb D n) (ht : (D n).ref c t ≠ 0) : marked sb c ((D n).ref c t).toNat = true :=
  h.exact.used_of_ref (refs_of_ref hn ht)

theorem ref_inj (hn : Allocated sb D n) (hm : Allocated sb D m) {u : Slot}
    (ht : (D n).ref c t ≠ 0) (he : (D m).ref c u = (D n).ref c t) : m = n ∧ u = t := by
  have hu : (D m).ref c u ≠ 0 := by rw [he]; exact ht
  have hr : refs sb c D (m, u) = some ((D n).ref c t).toNat := by rw [refs_of_ref hm hu, he]
  exact Prod.ext_iff.mp (h.exact.inj _ _ _ hr (refs_of_ref hn ht))

theorem ref_ne_flight (hn : Allocated sb D n) (ht : (D n).ref c t ≠ 0) (hb : b ∈ F) : ((D n).ref c t).toNat ≠ b := by
  intro he
  exact h.exact.flight_free b hb _ (he ▸ refs_of_ref hn ht)

theorem data_of_free (hb : marked sb c b = false) : sb.nmeta ≤ b := by
  by_contra hlt
  rw [h.metadata b (by omega)] at hb
  cases hb

theorem ref_ne_free (hn : Allocated sb D n) (ht : (D n).ref c t ≠ 0)
    (hb : marked sb c b = false) : ((D n).ref c t).toNat ≠ b := by
  intro he
  have hm := h.ref_marked hn ht
  rw [he, hb] at hm
  cases hm

end

theorem setBlock (hl : Layout sb) (h : Owned sb c D F) (hb : sb.nmeta ≤ b) (d : Data)
    (hno : ∀ n, Allocated sb D n → (D n).addrs indirect ≠ 0 → ((D n).addrs indirect).toNat ≠ b) :
    Owned sb (update c b d) D F where
  exact := by
    have hr : refs sb (update c b d) D = refs sb c D :=
      refs_congr fun n t => ⟨Iff.rfl, fun hn => ref_congr fun hne => update_of_ne (hno n hn hne) _ _⟩
    rw [hr]
    exact h.exact.congr (fun x hx => by rw [marked_data hl hx.2 hb]) fun _ => Iff.rfl
  metadata x hx := by
    have hlt : x < sb.size := hx.trans_le (Nat.sub_le _ _)
    rw [marked_data hl hlt hb]
    exact h.metadata x hx

theorem setDinode (hl : Layout sb) (h : Owned sb c D F) (hn : n < sb.ninodes) :
    Owned sb (setDinode sb c n x) D F where
  exact := by
    have hr : refs sb (Fs.setDinode sb c n x) D = refs sb c D := by
      refine refs_congr fun m t => ⟨Iff.rfl, fun hm => ref_congr fun hne => setDinode_data hl hn ?_⟩
      exact (h.ref_data hm (t := .addr indirect) hne).1
    rw [hr]
    exact h.exact.congr (fun b _ => by rw [marked_setDinode hl hn]) fun _ => Iff.rfl
  metadata b hb := by
    rw [marked_setDinode hl hn]
    exact h.metadata b hb

theorem setInode (h : Owned sb c D F) (hx : x.addrs = (D n).addrs) (ht : x.type = 0 ↔ (D n).type = 0) :
    Owned sb c (update D n x) F := by
  have hr : refs sb c (update D n x) = refs sb c D := by
    refine refs_congr fun m t => ⟨allocated_update ht, fun _ => ?_⟩
    by_cases hm : m = n
    · subst hm
      rw [update_self]
      exact ref_congr_addrs hx
    · rw [update_of_ne hm]
  exact ⟨hr ▸ h.exact, h.metadata⟩

theorem setEmpty (h : Owned sb c D F) (hd : (D n).type = 0 ∨ ∀ i, (D n).addrs i = 0) (hx : ∀ i, x.addrs i = 0) :
    Owned sb c (update D n x) F := by
  have hempty : ∀ (y : Dinode) (t : Slot), (∀ i, y.addrs i = 0) → y.ref c t = 0 := by
    intro y t hy
    cases t with
    | addr i => exact hy i
    | entry j => rw [Dinode.ref, if_pos (hy indirect)]
  have hr : refs sb c (update D n x) = refs sb c D := by
    funext ⟨m, t⟩
    by_cases hm : m = n
    · subst hm
      have hnone : refs sb c D (m, t) = none := by
        rcases hd with hd | hd
        · rw [refs, if_neg]
          exact fun hp => hp.1.2 hd
        · exact refs_eq_none (hempty _ t hd)
      rw [hnone]
      apply refs_eq_none
      rw [update_self]
      exact hempty x t hx
    · have he : update D n x m = D m := update_of_ne hm _ _
      exact refs_eq (by rw [Allocated, Allocated, he]) (by rw [he])
  exact ⟨hr ▸ h.exact, h.metadata⟩

/-! ## Allocation -/

theorem alloc (hl : Layout sb) (h : Owned sb c D F) (hb : b < sb.size) (hfree : marked sb c b = false) :
    Owned sb (update (mark sb c b) b fun _ => 0) D (insert b F) := by
  have hdata : sb.nmeta ≤ b := h.data_of_free hfree
  have hmark : Owned sb (mark sb c b) D (insert b F) := by
    have hr : refs sb (mark sb c b) D = refs sb c D := by
      refine refs_congr fun m t => ⟨Iff.rfl, fun hm => ref_congr fun hne => mark_data hl hb ?_⟩
      exact (h.ref_data hm (t := .addr indirect) hne).1
    constructor
    · rw [hr]
      refine h.exact.alloc ⟨hdata, hb⟩ (by simp [hfree]) fun x _ => ?_
      rw [marked_mark]
      simp
    · intro x hx
      rw [marked_mark, h.metadata x hx]
      rfl
  refine hmark.setBlock hl hdata _ fun n hn hne => ?_
  exact h.ref_ne_free hn (t := .addr indirect) hne hfree

theorem attachAddr (h : Owned sb c D (insert b F)) (hF : b ∉ F) (hn : Allocated sb D n) (ha : a.toNat = b)
    (ha0 : a ≠ 0) (hi : (D n).addrs i = 0) (hz : i = indirect → ∀ j, word (c b) j = 0) :
    Owned sb c (update D n ((D n).setAddr i a)) F := by
  have hself : ∀ t, ((D n).setAddr i a).ref c t = if t = .addr i then a else (D n).ref c t := by
    intro t
    by_cases hii : i = indirect
    · subst hii
      exact ref_setAddr_indirect hi fun j => by rw [ha]; exact hz rfl j
    · exact ref_setAddr_direct hii
  have hr : refs sb c (update D n ((D n).setAddr i a)) =
      update (refs sb c D) (n, .addr i) (some a.toNat) := refs_update hn (fun m => allocated_update Iff.rfl) ha0
    (fun m hm _ t => by rw [update_of_ne hm]) (fun t => by rw [update_self]; exact hself t)
  constructor
  · rw [hr, ha]
    exact h.exact.attach hF (refs_eq_none hi)
  · exact h.metadata

theorem attachEntry (hl : Layout sb) (h : Owned sb c D (insert b F)) (hF : b ∉ F) (hn : Allocated sb D n)
    (hw : w.toNat = b) (hw0 : w ≠ 0) (hx : (D n).addrs indirect = a) (ha : a ≠ 0) (hj : (D n).ref c (.entry j) = 0) :
    Owned sb (update c a.toNat (setWord (c a.toNat) j w)) D F := by
  have hdata : sb.nmeta ≤ a.toNat := by
    have hd := h.ref_data hn (t := .addr indirect) (by rw [Dinode.ref, hx]; exact ha)
    rw [Dinode.ref, hx] at hd
    exact hd.1
  have hother : ∀ m, m ≠ n → Allocated sb D m → ∀ t,
      (D m).ref (update c a.toNat (setWord (c a.toNat) j w)) t = (D m).ref c t := by
    intro m hm hmd t
    refine ref_congr fun hne => update_of_ne (fun he => hm ?_) _ _
    have heq : (D m).addrs indirect = a := BitVec.eq_of_toNat_eq he
    exact (h.ref_inj hn hmd (t := .addr indirect) (u := .addr indirect) (by rw [Dinode.ref, hx]; exact ha)
      (by rw [Dinode.ref, Dinode.ref, heq, hx])).1
  have hr := refs_update (t := .entry j) hn (fun m => Iff.rfl) hw0 hother fun t => ref_setWord hx ha
  constructor
  · rw [hr, hw]
    exact (h.exact.attach hF (refs_eq_none hj)).congr
      (fun x hx => by rw [marked_data hl hx.2 hdata]) fun _ => Iff.rfl
  · intro x hx
    have hlt : x < sb.size := hx.trans_le (Nat.sub_le _ _)
    rw [marked_data hl hlt hdata]
    exact h.metadata x hx

/-! ## Freeing -/

theorem free (hl : Layout sb) (h : Owned sb c D F) (hb : b ∈ F) : Owned sb (unmark sb c b) D (F \ {b}) := by
  have harea := h.exact.flight_area b hb
  have hr : refs sb (unmark sb c b) D = refs sb c D := by
    refine refs_congr fun m t => ⟨Iff.rfl, fun hm => ref_congr fun hne => unmark_data hl harea.2 ?_⟩
    exact (h.ref_data hm (t := .addr indirect) hne).1
  constructor
  · rw [hr]
    refine h.exact.free hb fun x _ => ?_
    rw [marked_unmark]
    simp
  · intro x hx
    have hne : x ≠ b := fun he => absurd hx (by rw [he]; exact Nat.not_lt.mpr harea.1)
    rw [marked_unmark, h.metadata x hx]
    simp [hne]

theorem detachAddr (h : Owned sb c D F) (hn : Allocated sb D n) (hi : i ≠ indirect) (ha : (D n).addrs i ≠ 0) :
    Owned sb c (update D n ((D n).setAddr i 0)) (insert ((D n).addrs i).toNat F) := by
  have hall : ∀ m, Allocated sb (update D n ((D n).setAddr i 0)) m ↔ Allocated sb D m :=
    fun m => allocated_update Iff.rfl
  constructor
  · have hd := h.exact.detach (r := refs sb c (update D n ((D n).setAddr i 0)))
      (P := fun p => p = (n, Slot.addr i)) ?_ ?_
    · refine hd.congr (fun _ _ => Iff.rfl) fun x => ?_
      simp only [Set.mem_insert_iff, Set.mem_union, Set.mem_ofPred_eq, exists_eq_left]
      rw [refs_of_ref hn (t := .addr i) ha, Dinode.ref, Option.some.injEq]
      constructor
      · rintro (rfl | hx)
        · exact Or.inr rfl
        · exact Or.inl hx
      · rintro (hx | rfl)
        · exact Or.inr hx
        · exact Or.inl rfl
    · rintro p rfl
      apply refs_eq_none
      rw [update_self, ref_setAddr_direct hi, if_pos rfl]
    · rintro ⟨m, t⟩ hp
      refine refs_eq (hall m) ?_
      by_cases hm : m = n
      · subst hm
        have ht : t ≠ .addr i := fun he => hp (by rw [he])
        rw [update_self, ref_setAddr_direct hi, if_neg ht]
      · rw [update_of_ne hm]
  · exact h.metadata

theorem detachIndirect (h : Owned sb c D F) (hn : Allocated sb D n) (ha : (D n).addrs indirect = a) (ha0 : a ≠ 0) :
    Owned sb c (update D n ((D n).setAddr indirect 0))
      (insert a.toNat (F ∪ {b | ∃ j : Fin NINDIRECT, word (c a.toNat) j ≠ 0 ∧ (word (c a.toNat) j).toNat = b})) := by
  have hall : ∀ m, Allocated sb (update D n ((D n).setAddr indirect 0)) m ↔ Allocated sb D m :=
    fun m => allocated_update Iff.rfl
  constructor
  · have hd := h.exact.detach (r := refs sb c (update D n ((D n).setAddr indirect 0)))
      (P := fun p => p.1 = n ∧ (p.2 = Slot.addr indirect ∨ ∃ j, p.2 = Slot.entry j)) ?_ ?_
    · refine hd.congr (fun _ _ => Iff.rfl) fun x => ?_
      have hentry : ∀ j, (D n).ref c (.entry j) = word (c a.toNat) j := by
        intro j
        rw [ref_entry_of_ne (by rw [ha]; exact ha0), ha]
      simp only [Set.mem_insert_iff, Set.mem_union, Set.mem_ofPred_eq]
      constructor
      · rintro (rfl | hx | ⟨j, hj, rfl⟩)
        · refine Or.inr ⟨(n, .addr indirect), ⟨rfl, Or.inl rfl⟩, refs_eq_some.mpr ⟨hn, ?_, ?_⟩⟩ <;> rw [Dinode.ref, ha]
          exact ha0
        · exact Or.inl hx
        · refine Or.inr ⟨(n, .entry j), ⟨rfl, Or.inr ⟨j, rfl⟩⟩, refs_eq_some.mpr ⟨hn, ?_, ?_⟩⟩ <;> rw [hentry]
          exact hj
      · rintro (hx | ⟨⟨m, t⟩, ⟨hm, ht⟩, hr⟩)
        · exact Or.inr (Or.inl hx)
        · simp only at hm ht
          subst hm
          obtain ⟨_, hne, hb⟩ := refs_eq_some.mp hr
          rcases ht with rfl | ⟨j, rfl⟩
          · rw [Dinode.ref, ha] at hb
            exact Or.inl hb.symm
          · rw [hentry] at hne hb
            exact Or.inr (Or.inr ⟨j, hne, hb⟩)
    · rintro ⟨m, t⟩ ⟨hm, ht⟩
      simp only at hm ht
      subst hm
      apply refs_eq_none
      rw [update_self]
      rcases ht with rfl | ⟨j, rfl⟩
      · rw [Dinode.ref, setAddr_addrs, update_self]
      · rw [Dinode.ref, setAddr_addrs, update_self, if_pos rfl]
    · rintro ⟨m, t⟩ hp
      refine refs_eq (hall m) ?_
      by_cases hm : m = n
      · subst hm
        rw [update_self]
        cases t with
        | addr k =>
          have hk : k ≠ indirect := fun he => hp ⟨rfl, Or.inl (by rw [he])⟩
          rw [Dinode.ref, setAddr_addrs, update_of_ne hk, Dinode.ref]
        | entry j => exact absurd ⟨rfl, Or.inr ⟨j, rfl⟩⟩ hp
      · rw [update_of_ne hm]
  · exact h.metadata

end Owned

/-! ## Files of at most one block -/

section FirstBlocks
variable {f : ℕ → ℕ}

theorem firstBlocks_owned
    (haddr : ∀ n < sb.ninodes, (D n).type ≠ 0 → ∀ i, (D n).addrs i = if i = 0 then BitVec.ofNat 32 (f n) else 0)
    (hrange : ∀ n < sb.ninodes, f n ≠ 0 → (D n).type ≠ 0 ∧ sb.nmeta ≤ f n ∧ f n < sb.size)
    (hinj : ∀ n < sb.ninodes, ∀ m < sb.ninodes, f n ≠ 0 → f n = f m → n = m)
    (hmark : ∀ b < sb.size, marked sb c b = true ↔ b < sb.nmeta ∨ ∃ n < sb.ninodes, f n ≠ 0 ∧ f n = b)
    (hsize : sb.size < 2 ^ 32) : Owned sb c D ∅ := by
  have hnum : ∀ n < sb.ninodes, f n ≠ 0 → (BitVec.ofNat 32 (f n)).toNat = f n := by
    intro n hlt hn
    have := (hrange n hlt hn).2.2
    rw [BitVec.toNat_ofNat, Nat.mod_eq_of_lt (by omega)]
  have href : ∀ {p b}, refs sb c D p = some b → p.1 < sb.ninodes ∧ p = (p.1, .addr 0) ∧ f p.1 ≠ 0 ∧ f p.1 = b := by
    rintro ⟨n, t⟩ b h
    obtain ⟨⟨hn, ht⟩, hne, hb⟩ := refs_eq_some.mp h
    cases t with
    | addr i =>
      simp only [Dinode.ref, haddr n hn ht] at hne hb
      split at hne
      · next hi =>
        have h0 : f n ≠ 0 := fun h0 => hne (by rw [h0]; rfl)
        rw [if_pos hi, hnum n hn h0] at hb
        exact ⟨hn, by rw [hi], h0, hb⟩
      · exact absurd rfl hne
    | entry j =>
      have hind : (D n).addrs indirect = 0 := by rw [haddr n hn ht, if_neg (by decide)]
      exact absurd (if_pos hind) hne
  have hself : ∀ n < sb.ninodes, f n ≠ 0 → refs sb c D (n, .addr 0) = some (f n) := by
    intro n hlt hn
    have halloc := (hrange n hlt hn).1
    have hval : (D n).ref c (.addr 0) = BitVec.ofNat 32 (f n) := by rw [Dinode.ref, haddr n hlt halloc, if_pos rfl]
    refine refs_eq_some.mpr ⟨⟨hlt, halloc⟩, fun h0 => hn ?_, by rw [hval, hnum n hlt hn]⟩
    rw [← hnum n hlt hn, ← hval, h0]
    rfl
  constructor
  · constructor
    · intro p q b hp hq
      obtain ⟨hp, he, hp0, hpb⟩ := href hp
      obtain ⟨hq, he', -, hqb⟩ := href hq
      rw [he, he', hinj _ hp _ hq hp0 (hpb.trans hqb.symm)]
    · intro p b hp
      obtain ⟨hlt, -, h0, rfl⟩ := href hp
      exact (hrange _ hlt h0).2
    · exact fun b hb => hb.elim
    · exact fun b hb => hb.elim
    · rintro b ⟨hb, hb'⟩
      rw [hmark b hb']
      constructor
      · rintro (hlt | ⟨n, hlt, hn, rfl⟩)
        · omega
        · exact Or.inl ⟨_, hself n hlt hn⟩
      · rintro (⟨p, hp⟩ | hb)
        · obtain ⟨hlt, -, h0, he⟩ := href hp
          exact Or.inr ⟨p.1, hlt, h0, he⟩
        · exact hb.elim
  · intro b hb
    have hle : sb.nmeta ≤ sb.size := Nat.sub_le _ _
    exact (hmark b (by omega)).mpr (Or.inl hb)

theorem firstBlocks_filled (h : ∀ n < sb.ninodes, (D n).type ≠ 0 → (D n).size.toNat ≤ BSIZE ∧
    ((D n).size = 0 ∨ (D n).addrs 0 ≠ 0)) : ∀ n, Allocated sb D n → (D n).Filled c := by
  rintro n ⟨hn, ht⟩ bn hbn
  obtain ⟨hle, h0 | h0⟩ := h n hn ht
  · rw [h0] at hbn
    exact absurd hbn (Nat.not_lt_zero _)
  · obtain rfl : bn = 0 := by
      unfold BSIZE at *
      omega
    exact h0

end FirstBlocks

end Xv6Boot.Kernel.Fs
