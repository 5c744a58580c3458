import Mathlib

/-! # Circular doubly linked lists

Nodes of type `α` linked through `next` and `prev` with one list head, written `none`. `Circular lk l`: from the
head on, `next` runs through `l` and back to the head, and `prev` runs the other way.
-/

namespace Xv6Boot.LinkedList
open Function

structure Links (α : Type*) where
  next : Option α → Option α
  prev : Option α → Option α

section
variable {α : Type*}

/-- From `x` through `l` to `y`. -/
def Segment (lk : Links α) : Option α → List α → Option α → Prop
  | x, [], y => lk.next x = y ∧ lk.prev y = x
  | x, a :: l, y => (lk.next x = some a ∧ lk.prev (some a) = x) ∧ Segment lk (some a) l y

structure Circular (lk : Links α) (l : List α) : Prop where
  nodup : l.Nodup
  segment : Segment lk none l none

def Links.empty : Links α := ⟨fun _ => none, fun _ => none⟩

theorem empty_circular : Circular (Links.empty : Links α) [] := ⟨List.nodup_nil, rfl, rfl⟩

variable {lk lk' : Links α} {x y : Option α} {a : α} {l l' : List α}

theorem segment_append : Segment lk x (l ++ a :: l') y ↔ Segment lk x l (some a) ∧ Segment lk (some a) l' y := by
  induction l generalizing x with
  | nil => exact Iff.rfl
  | cons b l ih =>
    rw [List.cons_append, Segment, Segment, ih]
    exact and_assoc.symm

theorem Segment.congr (h : Segment lk x l y) (hn : ∀ z ∈ x :: l.map some, lk'.next z = lk.next z)
    (hp : ∀ z ∈ l.map some ++ [y], lk'.prev z = lk.prev z) : Segment lk' x l y := by
  induction l generalizing x with
  | nil =>
    have hx := hn x (by simp)
    have hy := hp y (by simp)
    exact ⟨hx.trans h.1, hy.trans h.2⟩
  | cons a l ih =>
    have hx := hn x (by simp)
    have ha := hp (some a) (by simp)
    refine ⟨⟨hx.trans h.1.1, ha.trans h.1.2⟩, ih h.2 (fun z hz => ?_) (fun z hz => ?_)⟩
    · exact hn z (List.mem_cons_of_mem _ hz)
    · exact hp z (List.mem_cons_of_mem _ hz)

theorem Segment.prev_mem (h : Segment lk x l y) : lk.prev y ∈ x :: l.map some := by
  induction l generalizing x with
  | nil =>
    rw [h.2]
    exact List.mem_cons_self
  | cons a l ih => exact List.mem_cons_of_mem _ (ih h.2)

theorem Segment.next_mem (h : Segment lk x l y) : lk.next x ∈ l.map some ++ [y] := by
  cases l with
  | nil =>
    rw [h.1]
    exact List.mem_cons_self
  | cons a l =>
    rw [h.1.1]
    exact List.mem_cons_self

end

/-! ## Splicing -/

section
variable {α : Type*} [DecidableEq α]

namespace Links
variable (lk : Links α)

def setNext (x y : Option α) : Links α := { lk with next := update lk.next x y }

def setPrev (x y : Option α) : Links α := { lk with prev := update lk.prev x y }

/-- Put `b` behind the head. -/
def pushFront (b : α) : Links α :=
  let lk := lk.setNext (some b) (lk.next none)
  let lk := lk.setPrev (some b) none
  let lk := lk.setPrev (lk.next none) (some b)
  lk.setNext none (some b)

/-- Link the neighbours of `b` to each other. -/
def unlink (b : α) : Links α :=
  let lk := lk.setPrev (lk.next (some b)) (lk.prev (some b))
  lk.setNext (lk.prev (some b)) (lk.next (some b))

end Links

variable {lk : Links α} {x y z : Option α} {b : α} {l l₁ l₂ : List α}

theorem pushFront_next : (lk.pushFront b).next z = if z = none then some b else if z = some b then lk.next none else
    lk.next z := by
  simp [Links.pushFront, Links.setNext, Links.setPrev, update_apply]

theorem pushFront_prev :
    (lk.pushFront b).prev z = if z = lk.next none then some b else if z = some b then none else lk.prev z := by
  simp [Links.pushFront, Links.setNext, Links.setPrev, update_apply]

theorem unlink_next (hb : lk.next (some b) ≠ some b) :
    (lk.unlink b).next z = if z = lk.prev (some b) then lk.next (some b) else lk.next z := by
  simp [Links.unlink, Links.setNext, Links.setPrev, update_apply, Ne.symm hb]

theorem unlink_prev : (lk.unlink b).prev z = if z = lk.next (some b) then lk.prev (some b) else lk.prev z := by
  simp [Links.unlink, Links.setNext, Links.setPrev, update_apply]

theorem Circular.pushFront (h : Circular lk l) (hb : b ∉ l) : Circular (lk.pushFront b) (b :: l) := by
  have hmem := h.segment.next_mem
  have hne : lk.next none ≠ some b := by
    intro he
    rw [he] at hmem
    simp [hb] at hmem
  refine ⟨List.nodup_cons.mpr ⟨hb, h.nodup⟩, ⟨?_, ?_⟩, ?_⟩
  · rw [pushFront_next, if_pos rfl]
  · rw [pushFront_prev, if_neg (Ne.symm hne), if_pos rfl]
  · cases l with
    | nil =>
      have hnone : lk.next none = none := h.segment.1
      refine ⟨?_, ?_⟩
      · rw [pushFront_next, if_neg (by simp), if_pos rfl, hnone]
      · rw [pushFront_prev, hnone, if_pos rfl]
    | cons a l =>
      obtain ⟨⟨hnext, -⟩, hseg⟩ := h.segment
      have hal : a ∉ l := (List.nodup_cons.mp h.nodup).1
      refine ⟨⟨?_, ?_⟩, hseg.congr (fun z hz => ?_) (fun z hz => ?_)⟩
      · rw [pushFront_next, if_neg (by simp), if_pos rfl, hnext]
      · rw [pushFront_prev, hnext, if_pos rfl]
      · have hz0 : z ≠ none := by
          rintro rfl
          simp at hz
        have hzb : z ≠ some b := by
          rintro rfl
          simp only [List.mem_cons, Option.some.injEq, List.mem_map, exists_eq_right] at hz
          exact hb (List.mem_cons.mpr hz)
        rw [pushFront_next, if_neg hz0, if_neg hzb]
      · have hza : z ≠ some a := by
          rintro rfl
          simp [hal] at hz
        have hzb : z ≠ some b := by
          rintro rfl
          simp only [List.mem_append, List.mem_map, Option.some.injEq, exists_eq_right, List.mem_singleton,
            reduceCtorEq, or_false] at hz
          exact hb (List.mem_cons_of_mem _ hz)
        rw [pushFront_prev, hnext, if_neg hza, if_neg hzb]

theorem Segment.unlink (h₁ : Segment lk x l₁ (some b)) (h₂ : Segment lk (some b) l₂ y)
    (hx : x ∉ (l₁ ++ b :: l₂).map some) (hy : y ∉ (l₁ ++ b :: l₂).map some) (hnd : (l₁ ++ b :: l₂).Nodup) :
    Segment (lk.unlink b) x (l₁ ++ l₂) y := by
  have hself : lk.next (some b) ≠ some b := by
    intro he
    have := h₂.next_mem
    rw [he] at this
    simp only [List.mem_append, List.mem_map, Option.some.injEq, exists_eq_right, List.mem_singleton] at this
    rcases this with hb | hb
    · exact (List.nodup_cons.mp (List.nodup_append.mp hnd).2.1).1 hb
    · exact hy (by simp [← hb])
  induction l₁ generalizing x with
  | nil =>
    obtain ⟨hxb, hbx⟩ := h₁
    cases l₂ with
    | nil =>
      obtain ⟨hby, hyb⟩ := h₂
      refine ⟨?_, ?_⟩
      · rw [unlink_next hself, hbx, if_pos rfl, hby]
      · rw [unlink_prev, hby, if_pos rfl, hbx]
    | cons c l₂ =>
      obtain ⟨⟨hbc, hcb⟩, hseg⟩ := h₂
      simp only [List.nil_append, List.map_cons, List.mem_cons, List.mem_map, not_or, List.nodup_cons] at hx hy hnd
      refine ⟨⟨?_, ?_⟩, hseg.congr (fun z hz => ?_) (fun z hz => ?_)⟩
      · rw [unlink_next hself, hbx, if_pos rfl, hbc]
      · rw [unlink_prev, hbc, if_pos rfl, hbx]
      · have hzx : z ≠ x := by
          rintro rfl
          rcases List.mem_cons.mp hz with hz | hz
          · exact hx.2.1 hz
          · exact hx.2.2 (List.mem_map.mp hz)
        rw [unlink_next hself, hbx, if_neg hzx]
      · have hzc : z ≠ some c := by
          rintro rfl
          rcases List.mem_append.mp hz with hz | hz
          · obtain ⟨d, hd, hdc⟩ := List.mem_map.mp hz
            cases hdc
            exact hnd.2.1 hd
          · exact hy.2.1 (List.mem_singleton.mp hz).symm
        rw [unlink_prev, hbc, if_neg hzc]
  | cons a l₁ ih =>
    obtain ⟨⟨hxa, hax⟩, hseg⟩ := h₁
    simp only [List.cons_append, List.map_cons, List.mem_cons, not_or, List.nodup_cons] at hx hy hnd
    have hprev : x ≠ lk.prev (some b) := by
      rintro rfl
      rcases List.mem_cons.mp hseg.prev_mem with hm | hm
      · exact hx.1 hm
      · exact hx.2 (by
          rw [List.map_append]
          exact List.mem_append_left _ hm)
    have hnext : some a ≠ lk.next (some b) := by
      intro he
      have hm := h₂.next_mem
      rw [← he] at hm
      rcases List.mem_append.mp hm with hm | hm
      · obtain ⟨d, hd, hda⟩ := List.mem_map.mp hm
        cases hda
        exact hnd.1 (List.mem_append_right _ (List.mem_cons_of_mem _ hd))
      · exact hy.1 (List.mem_singleton.mp hm).symm
    refine ⟨⟨?_, ?_⟩, ih hseg ?_ hy.2 hnd.2⟩
    · rw [unlink_next hself, if_neg hprev, hxa]
    · rw [unlink_prev, if_neg hnext, hax]
    · intro hm
      obtain ⟨d, hd, hda⟩ := List.mem_map.mp hm
      cases hda
      exact hnd.1 hd

theorem Circular.unlink (h : Circular lk l) (hb : b ∈ l) : Circular (lk.unlink b) (l.erase b) := by
  obtain ⟨l₁, l₂, rfl⟩ := List.append_of_mem hb
  have hb₁ : b ∉ l₁ := fun hm => List.disjoint_of_nodup_append h.nodup hm List.mem_cons_self
  obtain ⟨h₁, h₂⟩ := segment_append.mp h.segment
  have hnone : none ∉ (l₁ ++ b :: l₂).map some := by simp
  refine ⟨h.nodup.erase b, ?_⟩
  rw [List.erase_append_right _ hb₁, List.erase_cons_head]
  exact h₁.unlink h₂ hnone hnone h.nodup

end

/-! ## Searching -/

variable {α : Type*} {lk : Links α} {x y : Option α} {l : List α}

/-- Follow the links from a node on until `p` holds or the head is reached. -/
def find (link : Option α → Option α) (p : α → Bool) : ℕ → Option α → Option α
  | 0, _ => none
  | _ + 1, none => none
  | n + 1, some a => if p a then some a else find link p n (link (some a))

theorem find_none (link : Option α → Option α) (p : α → Bool) (n : ℕ) : find link p n none = none := by
  cases n <;> rfl

theorem find_some {link : Option α → Option α} {p : α → Bool} {n : ℕ} {a : α} (h : find link p n x = some a) :
    p a = true := by
  induction n generalizing x with
  | zero => cases h
  | succ n ih =>
    cases x with
    | none => cases h
    | some b =>
      rw [find] at h
      split at h
      · next hb =>
        cases h
        exact hb
      · exact ih h

theorem Segment.find_next (h : Segment lk x l none) (p : α → Bool) {n : ℕ} (hn : l.length ≤ n) :
    find lk.next p n (lk.next x) = l.find? p := by
  induction l generalizing x n with
  | nil => rw [h.1, find_none, List.find?_nil]
  | cons a l ih =>
    cases n with
    | zero => simp at hn
    | succ n =>
      rw [h.1.1, find, List.find?_cons]
      cases p a with
      | true => rfl
      | false => exact ih h.2 (by simpa using hn)

theorem Segment.find_prev (h : Segment lk none l y) (p : α → Bool) {n : ℕ} (hn : l.length ≤ n) :
    find lk.prev p n (lk.prev y) = l.reverse.find? p := by
  induction l using List.reverseRecOn generalizing y n with
  | nil => rw [h.2, find_none, List.reverse_nil, List.find?_nil]
  | append_singleton l a ih =>
    obtain ⟨h₁, h₂⟩ := segment_append.mp h
    cases n with
    | zero => simp at hn
    | succ n =>
      rw [h₂.2, find, List.reverse_append, List.reverse_singleton, List.singleton_append, List.find?_cons]
      cases p a with
      | true => rfl
      | false => exact ih h₁ (by simpa using hn)

end Xv6Boot.LinkedList
