import Xv6Boot.Foundations.ByteMemory

/-! # Aligned pages and chains of free pages

Pages of 4096 bytes in a flat memory. A chain is a singly linked list threaded through the pages
themselves: the first word of a page is the address of the next one. `Pool` is a chain of distinct
aligned pages; writes elsewhere keep it, taking its head and putting a page in front keep it.
-/

namespace Xv6Boot.Pages
open ByteMemory

/-! ## Pages -/

def pageBytes : ℕ := 4096

def Aligned (p : Addr) : Prop := p.toNat % pageBytes = 0

instance (p : Addr) : Decidable (Aligned p) := inferInstanceAs (Decidable (_ = _))

def page (p : Addr) : Set Addr := span p pageBytes

variable {p q : Addr} {X : Finset Addr}

theorem Aligned.toNat_le (h : Aligned p) : p.toNat + pageBytes ≤ 2 ^ 64 := by
  have := p.isLt
  unfold Aligned pageBytes at *
  omega

theorem page_disjoint (hp : Aligned p) (hq : Aligned q) (h : p ≠ q) : Disjoint (page p) (page q) := by
  have hne : p.toNat ≠ q.toNat := fun he => h (BitVec.eq_of_toNat_eq he)
  have hp' := hp.toNat_le
  have hq' := hq.toNat_le
  unfold Aligned pageBytes at *
  rcases Nat.lt_or_gt_of_ne hne with hlt | hlt
  · exact span_disjoint (by unfold pageBytes; omega) hq'
  · exact (span_disjoint (by unfold pageBytes; omega) hp').symm

theorem word_subset_page (p : Addr) {k : ℕ} (hk : k + 8 ≤ pageBytes) : span (off p k) 8 ⊆ page p :=
  span_off_subset p hk (by decide)

theorem first_word_subset_page (p : Addr) : span p 8 ⊆ page p := span_mono p (by decide)

def region (X : Finset Addr) : Set Addr := ⋃ p ∈ X, page p

theorem page_subset_region (hp : p ∈ X) : page p ⊆ region X :=
  Set.subset_biUnion_of_mem (u := page) hp

theorem region_mono {Y : Finset Addr} (h : X ⊆ Y) : region X ⊆ region Y :=
  Set.biUnion_subset_biUnion_left h

theorem page_disjoint_region (hX : ∀ p ∈ X, Aligned p) (hq : Aligned q) (h : q ∉ X) : Disjoint (page q) (region X) := by
  refine Set.disjoint_iUnion₂_right.mpr fun p hp => page_disjoint hq (hX p hp) ?_
  rintro rfl
  exact h hp

/-! ## Chains -/

def Chain (m : Mem) : Addr → List Addr → Prop
  | head, [] => head = 0
  | head, p :: l => head = p ∧ p ≠ 0 ∧ Chain m (load 64 m p) l

theorem Chain.frame {m m' : Mem} {s : Set Addr} (hf : Frame s m m') {head : Addr} {l : List Addr}
    (hd : ∀ p ∈ l, Disjoint (page p) s) (h : Chain m head l) : Chain m' head l := by
  induction l generalizing head with
  | nil => exact h
  | cons p l ih =>
    obtain ⟨hh, h0, hc⟩ := h
    have hp := hd p List.mem_cons_self
    refine ⟨hh, h0, ?_⟩
    rw [hf.load_eq (hp.mono_left (first_word_subset_page p)) (by norm_num)]
    exact ih (fun q hq => hd q (List.mem_cons_of_mem _ hq)) hc

/-- A chain of distinct aligned pages. -/
structure Pool (m : Mem) (head : Addr) (l : List Addr) : Prop where
  chain : Chain m head l
  aligned : ∀ p ∈ l, Aligned p
  nodup : l.Nodup

namespace Pool
variable {m m' : Mem} {head : Addr} {l : List Addr}

theorem frame {s : Set Addr} (h : Pool m head l) (hf : Frame s m m')
    (hd : ∀ p ∈ l, Disjoint (page p) s) : Pool m' head l :=
  ⟨h.chain.frame hf hd, h.aligned, h.nodup⟩

theorem frame_page (h : Pool m head l) (hq : Aligned q) (hn : q ∉ l) (hf : Frame (page q) m m') : Pool m' head l :=
  h.frame hf fun p hp => page_disjoint (h.aligned p hp) hq fun he => hn (he ▸ hp)

theorem pop (h : Pool m head (p :: l)) (hf : Frame (page p) m m') : head = p ∧ p ≠ 0 ∧ Pool m' (load 64 m p) l := by
  obtain ⟨hh, h0, hc⟩ := h.chain
  obtain ⟨hp, hn⟩ := List.nodup_cons.mp h.nodup
  have ha : ∀ q ∈ l, Aligned q := fun q hq => h.aligned q (List.mem_cons_of_mem _ hq)
  exact ⟨hh, h0, Pool.frame_page ⟨hc, ha, hn⟩ (h.aligned p List.mem_cons_self) hp hf⟩

theorem push (h : Pool m head l) (hp : Aligned p) (h0 : p ≠ 0) (hn : p ∉ l) (hf : Frame (page p) m m')
    (hl : load 64 m' p = head) : Pool m' p (p :: l) where
  chain := ⟨rfl, h0, hl ▸ (h.frame_page hp hn hf).chain⟩
  aligned := List.forall_mem_cons.mpr ⟨hp, h.aligned⟩
  nodup := List.nodup_cons.mpr ⟨hn, h.nodup⟩

end Pool

end Xv6Boot.Pages
