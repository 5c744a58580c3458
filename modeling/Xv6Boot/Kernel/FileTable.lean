import Xv6Boot.Foundations.Counting
import Xv6Boot.Kernel.SysFile

/-! # The table of open files

A file's count is the number of descriptors that point to it, and while a call works, of the call's own references.
The files of a pipe are its two ends. What changes a file, a descriptor or a pipe keeps these facts.
-/

namespace Xv6Boot.Kernel.SysFile
open Function Program Counting Fs

variable {s s' : Sys} {f g : Fp} {p : Pid} {fd : Fd} {x y : List Fp} {page : ℕ} {w : Bool}

/-! ## Descriptors -/

def Sys.ofiles (s : Sys) (q : Pid × Fd) : Option Fp := (s.proc q.1).ofile q.2

def Sys.slots (s : Sys) (f : Fp) : ℕ := count (fun o => decide (o = some f)) s.ofiles

def Sys.withSlot (s : Sys) (p : Pid) (fd : Fd) (o : Option Fp) : Sys :=
  { s with proc := update s.proc p { s.proc p with ofile := update (s.proc p).ofile fd o } }

def Sys.withFile (s : Sys) (f : Fp) (g : File) : Sys := { s with file := update s.file f g }

theorem withFile_file (s : Sys) (f a : Fp) (g : File) : (s.withFile f g).file a = if a = f then g else s.file a :=
  update_apply _ _ _ _

theorem withFile_self (s : Sys) (f : Fp) (g : File) : (s.withFile f g).file f = g := update_self _ _ _

theorem withSlot_self (s : Sys) (p : Pid) (fd : Fd) (o : Option Fp) :
    (s.withSlot p fd o).proc p = { s.proc p with ofile := update (s.proc p).ofile fd o } :=
  update_self _ _ _

theorem withSlot_ne (s : Sys) {p q : Pid} (fd : Fd) (o : Option Fp) (h : q ≠ p) :
    (s.withSlot p fd o).proc q = s.proc q := update_of_ne h _ _

theorem ofiles_withSlot (o : Option Fp) : (s.withSlot p fd o).ofiles = update s.ofiles (p, fd) o := by
  funext q
  obtain ⟨p', fd'⟩ := q
  by_cases hp : p' = p
  · subst hp
    by_cases hfd : fd' = fd
    · subst hfd
      simp [Sys.ofiles, Sys.withSlot]
    · have hne : (p', fd') ≠ (p', fd) := fun h => hfd (Prod.mk.inj h).2
      simp [Sys.ofiles, Sys.withSlot, update_of_ne hne, update_of_ne hfd]
  · have hne : (p', fd') ≠ (p, fd) := fun h => hp (Prod.mk.inj h).1
    simp [Sys.ofiles, Sys.withSlot, update_of_ne hne, update_of_ne hp]

theorem slots_withSlot (o : Option Fp) (g : Fp) :
    (s.withSlot p fd o).slots g + (decide ((s.proc p).ofile fd = some g)).toNat =
      s.slots g + (decide (o = some g)).toNat := by
  rw [Sys.slots, Sys.slots, ofiles_withSlot]
  exact count_update (fun o => decide (o = some g)) s.ofiles (p, fd) o

/-! ## What a file is open on -/

def File.obj (g : File) : Option Obj :=
  match g.type with
  | .FD_NONE => none
  | .FD_PIPE => some (.pipe g.pipe g.writable)
  | .FD_INODE => some (.inode g.ip)
  | .FD_DEVICE => some (.inode g.ip)

theorem File.obj_eq_none {g : File} : g.obj = none ↔ g.type = .FD_NONE := by
  unfold File.obj
  split <;> simp_all

structure Pipes (obj : Fp → Option Obj) (pipe : ℕ → Option Pipe) : Prop where
  ends : ∀ page pi, pipe page = some pi →
    (pi.readopen = true ↔ ∃ f, obj f = some (.pipe page false)) ∧
    (pi.writeopen = true ↔ ∃ f, obj f = some (.pipe page true))
  live : ∀ f page w, obj f = some (.pipe page w) → (pipe page).isSome = true
  kept : ∀ page pi, pipe page = some pi → pi.readopen = true ∨ pi.writeopen = true
  single : ∀ f g page w, obj f = some (.pipe page w) → obj g = some (.pipe page w) → f = g

def Pipe.shut (pi : Pipe) (w : Bool) : Pipe :=
  if w then { pi with writeopen := false } else { pi with readopen := false }

/-- The pipes after `pipeclose`. -/
def closeEnd (pipe : ℕ → Option Pipe) (page : ℕ) (w : Bool) : ℕ → Option Pipe :=
  update pipe page ((pipe page).bind fun pi =>
    if (pi.shut w).readopen = false ∧ (pi.shut w).writeopen = false then none else some (pi.shut w))

namespace Pipes
variable {obj : Fp → Option Obj} {pipe : ℕ → Option Pipe}

theorem close (h : Pipes obj pipe) (hf : obj f = some (.pipe page w)) :
    Pipes (update obj f none) (closeEnd pipe page w) := by
  obtain ⟨pi, hpi⟩ := Option.isSome_iff_exists.mp (h.live f page w hf)
  obtain ⟨hread, hwrite⟩ := h.ends page pi hpi
  have hobj : ∀ g page' w', update obj f none g = some (.pipe page' w') ↔
      g ≠ f ∧ obj g = some (.pipe page' w') := by
    intro g page' w'
    by_cases hg : g = f
    · subst hg
      simp
    · simp [hg]
  -- the end that `f` was has no file any more
  have hgone : ∀ g, update obj f none g ≠ some (.pipe page w) := fun g hg =>
    ((hobj g page w).mp hg).1 (h.single g f page w ((hobj g page w).mp hg).2 hf)
  have hstay : ∀ page' w', (page', w') ≠ (page, w) →
      ((∃ g, update obj f none g = some (.pipe page' w')) ↔ ∃ g, obj g = some (.pipe page' w')) := by
    intro page' w' hne
    constructor
    · rintro ⟨g, hg⟩
      exact ⟨g, ((hobj g page' w').mp hg).2⟩
    · rintro ⟨g, hg⟩
      refine ⟨g, (hobj g page' w').mpr ⟨?_, hg⟩⟩
      rintro rfl
      rw [hf] at hg
      simp only [Option.some.injEq, Obj.pipe.injEq] at hg
      exact hne (Prod.ext hg.1.symm hg.2.symm)
  have hshut : ((pi.shut w).readopen = true ↔ ∃ g, update obj f none g = some (.pipe page false)) ∧
      ((pi.shut w).writeopen = true ↔ ∃ g, update obj f none g = some (.pipe page true)) := by
    cases w with
    | false =>
      refine ⟨iff_of_false Bool.false_ne_true fun ⟨g, hg⟩ => hgone g hg, ?_⟩
      rw [hstay page true (by simp)]
      exact hwrite
    | true =>
      refine ⟨?_, iff_of_false Bool.false_ne_true fun ⟨g, hg⟩ => hgone g hg⟩
      rw [hstay page false (by simp)]
      exact hread
  have hpage : closeEnd pipe page w page =
      if (pi.shut w).readopen = false ∧ (pi.shut w).writeopen = false then none else some (pi.shut w) := by
    rw [closeEnd, update_self, hpi]
    rfl
  have hother : ∀ page', page' ≠ page → closeEnd pipe page w page' = pipe page' := fun page' hne => by
    rw [closeEnd, update_of_ne hne]
  constructor
  · intro page' pi' hpi'
    by_cases hp : page' = page
    · subst hp
      rw [hpage] at hpi'
      split at hpi'
      · cases hpi'
      · cases hpi'
        exact hshut
    · rw [hother page' hp] at hpi'
      rw [hstay page' false (by simp [hp]), hstay page' true (by simp [hp])]
      exact h.ends page' pi' hpi'
  · intro g page' w' hg
    by_cases hp : page' = page
    · subst hp
      rw [hpage, if_neg]
      · rfl
      · rintro ⟨hr, hw⟩
        cases w' with
        | false => rw [hshut.1.mpr ⟨g, hg⟩] at hr; cases hr
        | true => rw [hshut.2.mpr ⟨g, hg⟩] at hw; cases hw
    · rw [hother page' hp]
      exact h.live g page' w' ((hobj g page' w').mp hg).2
  · intro page' pi' hpi'
    by_cases hp : page' = page
    · subst hp
      rw [hpage] at hpi'
      split at hpi'
      · cases hpi'
      · next hopen =>
        cases hpi'
        rw [not_and_or, Bool.not_eq_false, Bool.not_eq_false] at hopen
        exact hopen
    · rw [hother page' hp] at hpi'
      exact h.kept page' pi' hpi'
  · exact fun a b page' w' ha hb => h.single a b page' w' ((hobj a page' w').mp ha).2 ((hobj b page' w').mp hb).2

theorem other {v : Option Obj} (h : Pipes obj pipe) (hf : ∀ page w, obj f ≠ some (.pipe page w))
    (hv : ∀ page w, v ≠ some (.pipe page w)) : Pipes (update obj f v) pipe := by
  have hobj : ∀ g page' w', update obj f v g = some (.pipe page' w') ↔ obj g = some (.pipe page' w') := by
    intro g page' w'
    by_cases hg : g = f
    · subst hg
      rw [update_self]
      exact iff_of_false (hv page' w') (hf page' w')
    · rw [update_of_ne hg]
  refine ⟨fun page' pi hpi => ?_, fun g page' w' hg => h.live g page' w' ((hobj g page' w').mp hg), h.kept,
    fun a b page' w' ha hb => h.single a b page' w' ((hobj a page' w').mp ha) ((hobj b page' w').mp hb)⟩
  simp only [hobj]
  exact h.ends page' pi hpi

theorem open_ (h : Pipes obj pipe) (hpage : pipe page = none) (hf : obj f = none) (hg : obj g = none) (hfg : f ≠ g) :
    Pipes (update (update obj f (some (.pipe page false))) g (some (.pipe page true)))
      (update pipe page (some ⟨true, true⟩)) := by
  have hno : ∀ a w', obj a ≠ some (.pipe page w') := by
    intro a w' ha
    have := h.live a page w' ha
    rw [hpage] at this
    cases this
  have hobj : ∀ a page' w', update (update obj f (some (.pipe page false))) g
      (some (.pipe page true)) a = some (.pipe page' w') ↔
      (page' = page ∧ a = if w' then g else f) ∨ (page' ≠ page ∧ obj a = some (.pipe page' w')) := by
    intro a page' w'
    by_cases hag : a = g
    · subst hag
      rw [update_self, hg]
      cases w' <;> simp [eq_comm, hfg]
    · rw [update_of_ne hag]
      by_cases haf : a = f
      · subst haf
        rw [update_self, hf]
        cases w' <;> simp [eq_comm, Ne.symm hag]
      · rw [update_of_ne haf]
        by_cases hp : page' = page
        · subst hp
          simp only [hno a w', false_iff]
          cases w' <;> simp [hag, haf]
        · simp [hp]
  constructor
  · intro page' pi hpi
    by_cases hp : page' = page
    · subst hp
      rw [update_self] at hpi
      cases hpi
      exact ⟨iff_of_true rfl ⟨f, (hobj f page' false).mpr (Or.inl ⟨rfl, rfl⟩)⟩,
        iff_of_true rfl ⟨g, (hobj g page' true).mpr (Or.inl ⟨rfl, rfl⟩)⟩⟩
    · rw [update_of_ne hp] at hpi
      have hsame : ∀ w', (∃ a, update (update obj f (some (.pipe page false))) g
          (some (.pipe page true)) a = some (.pipe page' w')) ↔ ∃ a, obj a = some (.pipe page' w') := by
        intro w'
        simp [hobj, hp]
      rw [hsame false, hsame true]
      exact h.ends page' pi hpi
  · intro a page' w' ha
    rcases (hobj a page' w').mp ha with ⟨rfl, _⟩ | ⟨hp, ha'⟩
    · rw [update_self]
      rfl
    · rw [update_of_ne hp]
      exact h.live a page' w' ha'
  · intro page' pi hpi
    by_cases hp : page' = page
    · subst hp
      rw [update_self] at hpi
      cases hpi
      exact Or.inl rfl
    · rw [update_of_ne hp] at hpi
      exact h.kept page' pi hpi
  · intro a b page' w' ha hb
    rcases (hobj a page' w').mp ha with ⟨rfl, ha'⟩ | ⟨hp, ha'⟩
    · rcases (hobj b _ w').mp hb with ⟨_, hb'⟩ | ⟨hp, _⟩
      · rw [ha', hb']
      · exact absurd rfl hp
    · rcases (hobj b page' w').mp hb with ⟨hp', _⟩ | ⟨_, hb'⟩
      · exact absurd hp' hp
      · exact h.single a b page' w' ha' hb'

end Pipes

/-! ## The table -/

/-- The call has references to the files in `x`; those in `y` may not yet be open on anything. -/
structure Files (s : Sys) (x y : List Fp) : Prop where
  ref : ∀ f, (s.file f).ref = s.slots f + x.count f
  idle : ∀ f, (s.file f).ref = 0 → (s.file f).type = .FD_NONE
  bound : ∀ f, 0 < (s.file f).ref → f ∉ y → (s.file f).type ≠ .FD_NONE
  history : ∀ f, s.opened f = s.closed f ++ (s.file f).obj.toList
  pipes : Pipes (fun f => (s.file f).obj) s.pipe
  nodup : s.freelist.Nodup
  free : ∀ page ∈ s.freelist, s.pipe page = none

namespace Files
variable {x' y' : List Fp}

theorem ref_nonneg (h : Files s x y) (f : Fp) : 0 ≤ (s.file f).ref := by
  have := h.ref f
  omega

theorem ref_pos (h : Files s (f :: x) y) : 0 < (s.file f).ref := by
  have hr := h.ref f
  rw [List.count_cons_self] at hr
  omega

theorem ref_pos_of_slot (h : Files s x y) (hf : (s.proc p).ofile fd = some f) : 0 < (s.file f).ref := by
  have hs : 0 < s.slots f := count_pos_iff.mpr ⟨(p, fd), decide_eq_true hf⟩
  have hr := h.ref f
  omega

theorem change (h : Files s x y) (hobj : ∀ a, (s'.file a).obj = (s.file a).obj) (hpipe : s'.pipe = s.pipe)
    (hfree : s'.freelist = s.freelist) (ho : s'.opened = s.opened) (hc : s'.closed = s.closed)
    (href : ∀ a, (s'.file a).ref = s'.slots a + x'.count a)
    (hidle : ∀ a, (s'.file a).ref = 0 → (s.file a).type = .FD_NONE)
    (hbound : ∀ a, 0 < (s'.file a).ref → a ∉ y' → (s.file a).type ≠ .FD_NONE) : Files s' x' y' where
  ref := href
  idle a ha := File.obj_eq_none.mp ((hobj a).trans (File.obj_eq_none.mpr (hidle a ha)))
  bound a ha hy hn := hbound a ha hy (File.obj_eq_none.mp ((hobj a).symm.trans (File.obj_eq_none.mpr hn)))
  history a := by rw [ho, hc, hobj, h.history]
  pipes := by
    have he : (fun a => (s'.file a).obj) = fun a => (s.file a).obj := funext hobj
    rw [he, hpipe]
    exact h.pipes
  nodup := hfree ▸ h.nodup
  free page hp := by
    rw [hpipe]
    exact h.free page (hfree ▸ hp)

theorem withFs (h : Files s x y) (fs : State) : Files { s with fs := fs } x y :=
  ⟨h.ref, h.idle, h.bound, h.history, h.pipes, h.nodup, h.free⟩

theorem setRef {r : ℤ} (h : Files s x y) (href : ∀ a, (if a = f then r else (s.file a).ref) = s.slots a + x'.count a)
    (hidle : r = 0 → (s.file f).type = .FD_NONE) (hbound : 0 < r → f ∉ y' → (s.file f).type ≠ .FD_NONE)
    (hy : ∀ a, a ≠ f → a ∉ y' → a ∉ y) : Files (s.withFile f { s.file f with ref := r }) x' y' := by
  refine h.change (fun a => ?_) rfl rfl rfl rfl (fun a => ?_) (fun a ha => ?_) fun a ha hya => ?_
  · rw [withFile_file]
    split
    · next ha => rw [ha]; rfl
    · rfl
  · refine Eq.trans ?_ (href a)
    rw [withFile_file]
    split <;> rfl
  · rw [withFile_file] at ha
    split at ha
    · next hf => rw [hf]; exact hidle ha
    · exact h.idle a ha
  · rw [withFile_file] at ha
    split at ha
    · next hf =>
      rw [hf] at hya ⊢
      exact hbound ha hya
    · next hf => exact h.bound a ha (hy a hf hya)

theorem count_cons_ite (x : List Fp) (f a : Fp) : (((f :: x).count a : ℕ) : ℤ) = x.count a + if a = f then 1 else 0 := by
  rw [List.count_cons]
  by_cases h : a = f
  · simp [h]
  · simp [h, Ne.symm h]

theorem alloc (h : Files s x y) (hf : (s.file f).ref = 0) :
    Files (s.withFile f { s.file f with ref := 1 }) (f :: x) (f :: y) := by
  refine h.setRef (fun a => ?_) nofun (fun _ hy => absurd List.mem_cons_self hy) fun a ha hy => ?_
  · rw [count_cons_ite]
    have hr := h.ref a
    split
    · next ha => rw [ha] at hr ⊢; omega
    · omega
  · exact fun hm => hy (List.mem_cons_of_mem f hm)

theorem less (h : Files s (f :: x) y) (hf : 1 < (s.file f).ref) :
    Files (s.withFile f { s.file f with ref := (s.file f).ref - 1 }) x y := by
  refine h.setRef (fun a => ?_) (fun h0 => by omega) (fun _ hy => h.bound f (by omega) hy) fun _ _ hy => hy
  have hr := h.ref a
  rw [count_cons_ite] at hr
  split
  · next ha =>
    rw [if_pos ha] at hr
    rw [← ha]
    omega
  · next ha =>
    rw [if_neg ha] at hr
    omega

theorem setSlot (h : Files s x y) (o : Option Fp)
    (href : ∀ a, ((x'.count a : ℕ) : ℤ) + (decide (o = some a)).toNat = x.count a +
      (decide ((s.proc p).ofile fd = some a)).toNat) :
    Files (s.withSlot p fd o) x' y := by
  refine h.change (fun _ => rfl) rfl rfl rfl rfl (fun a => ?_) h.idle fun a ha hy => h.bound a ha hy
  have hs : (s.withSlot p fd o).slots a + (decide ((s.proc p).ofile fd = some a)).toNat =
      s.slots a + (decide (o = some a)).toNat := slots_withSlot o a
  have hr := h.ref a
  have hx := href a
  have hfile : ((s.withSlot p fd o).file a).ref = (s.file a).ref := rfl
  omega

theorem toNat_decide_some (f a : Fp) : ((decide (some f = some a)).toNat : ℤ) = if a = f then 1 else 0 := by
  by_cases h : a = f
  · simp [h]
  · simp [h, Ne.symm h]

theorem slot (h : Files s (f :: x) y) (hfd : (s.proc p).ofile fd = none) : Files (s.withSlot p fd (some f)) x y := by
  refine h.setSlot _ fun a => ?_
  rw [toNat_decide_some, count_cons_ite, hfd]
  simp

theorem unslot (h : Files s x y) (hfd : (s.proc p).ofile fd = some f) : Files (s.withSlot p fd none) (f :: x) y := by
  refine h.setSlot _ fun a => ?_
  rw [hfd, toNat_decide_some, count_cons_ite]
  simp

theorem dup (h : Files s x y) (hf : 0 < (s.file f).ref) :
    Files (s.withFile f { s.file f with ref := (s.file f).ref + 1 }) (f :: x) y := by
  refine h.setRef (fun a => ?_) (fun h0 => by omega) (fun _ hy => h.bound f hf hy) fun _ _ hy => hy
  rw [count_cons_ite]
  have hr := h.ref a
  split
  · next ha => rw [ha] at hr ⊢; omega
  · omega

theorem perm (h : Files s x y) (hx : x'.Perm x) (hy : y'.Perm y) : Files s x' y' :=
  { h with
    ref := fun a => by rw [hx.count_eq]; exact h.ref a
    bound := fun a ha hm => h.bound a ha fun hy' => hm (hy.mem_iff.mpr hy') }

theorem forget (h : Files s x (f :: y)) (hf : (s.file f).ref = 0) : Files s x y :=
  { h with
    bound := fun a ha hy => h.bound a ha fun hm => by
      rcases List.mem_cons.mp hm with rfl | hm
      · omega
      · exact hy hm }

theorem rebind {g : File} {pipe : ℕ → Option Pipe} {free : List ℕ} {o c : Fp → List Obj} (h : Files s x y)
    (href : ∀ a, (if a = f then g.ref else (s.file a).ref) = s.slots a + x'.count a)
    (hidle : g.ref = 0 → g.type = .FD_NONE) (hbound : 0 < g.ref → f ∉ y' → g.type ≠ .FD_NONE)
    (hy : ∀ a, a ≠ f → a ∉ y' → a ∉ y) (hself : o f = c f ++ g.obj.toList)
    (hother : ∀ a, a ≠ f → o a = s.opened a ∧ c a = s.closed a)
    (hpipes : Pipes (update (fun a => (s.file a).obj) f g.obj) pipe) (hnodup : free.Nodup)
    (hfree : ∀ page ∈ free, pipe page = none) :
    Files { s.withFile f g with pipe := pipe, freelist := free, opened := o, closed := c } x' y' := by
  have hfile : ∀ a, (s.withFile f g).file a = if a = f then g else s.file a := fun a => withFile_file s f a g
  refine ⟨fun a => (?_ : ((s.withFile f g).file a).ref = _), fun a (ha : ((s.withFile f g).file a).ref = 0) => ?_,
    fun a (ha : 0 < ((s.withFile f g).file a).ref) hya => ?_, fun a => ?_, ?_, hnodup, hfree⟩
  · refine Eq.trans ?_ (href a)
    rw [hfile]
    split <;> rfl
  · change ((s.withFile f g).file a).type = _
    rw [hfile] at ha ⊢
    split at ha
    · next hf => rw [if_pos hf]; exact hidle ha
    · next hf => rw [if_neg hf]; exact h.idle a ha
  · change ((s.withFile f g).file a).type ≠ _
    rw [hfile] at ha ⊢
    split at ha
    · next hf => rw [if_pos hf]; exact hbound ha (hf ▸ hya)
    · next hf => rw [if_neg hf]; exact h.bound a ha (hy a hf hya)
  · change o a = c a ++ ((s.withFile f g).file a).obj.toList
    rw [hfile]
    split
    · next hf => rw [hf]; exact hself
    · next hf => rw [(hother a hf).1, (hother a hf).2, h.history]
  · have he : (fun a => ((s.withFile f g).file a).obj) = update (fun a => (s.file a).obj) f g.obj := by
      funext a
      rw [hfile, update_apply]
      split <;> rfl
    change Pipes (fun a => ((s.withFile f g).file a).obj) pipe
    rw [he]
    exact hpipes

theorem openPipe {ff gg : File} {rest : List ℕ} {o : Fp → List Obj} (h : Files s x (f :: g :: y)) (hfg : f ≠ g)
    (hf : (s.file f).type = .FD_NONE) (hg : (s.file g).type = .FD_NONE) (hf0 : 0 < (s.file f).ref)
    (hg0 : 0 < (s.file g).ref) (hfree : s.freelist = page :: rest) (hff : ff.ref = (s.file f).ref)
    (hgg : gg.ref = (s.file g).ref) (hfo : ff.obj = some (.pipe page false)) (hgo : gg.obj = some (.pipe page true))
    (hof : o f = s.opened f ++ [.pipe page false]) (hog : o g = s.opened g ++ [.pipe page true])
    (hother : ∀ a, a ≠ f → a ≠ g → o a = s.opened a) :
    Files { s with
      file := update (update s.file f ff) g gg
      pipe := update s.pipe page (some ⟨true, true⟩)
      freelist := rest
      opened := o } x y := by
  have hnone : s.pipe page = none := h.free page (hfree ▸ List.mem_cons_self)
  have hnodup := h.nodup
  rw [hfree, List.nodup_cons] at hnodup
  have hfile : ∀ a, a ≠ f → a ≠ g → update (update s.file f ff) g gg a = s.file a :=
    fun a haf hag => by rw [update_of_ne hag, update_of_ne haf]
  have hfile_f : update (update s.file f ff) g gg f = ff := by
    rw [update_of_ne hfg, update_self]
  have hfile_g : update (update s.file f ff) g gg g = gg := update_self ..
  have href : ∀ a, (update (update s.file f ff) g gg a).ref = (s.file a).ref := by
    intro a
    by_cases hag : a = g
    · rw [hag, hfile_g, hgg]
    · by_cases haf : a = f
      · rw [haf, hfile_f, hff]
      · rw [hfile a haf hag]
  have hobj : (fun a => (update (update s.file f ff) g gg a).obj) =
      update (update (fun a => (s.file a).obj) f (some (.pipe page false))) g
        (some (.pipe page true)) := by
    funext a
    by_cases hag : a = g
    · rw [hag, hfile_g, update_self, hgo]
    · by_cases haf : a = f
      · rw [haf, hfile_f, update_of_ne hfg, update_self, hfo]
      · rw [hfile a haf hag, update_of_ne hag, update_of_ne haf]
  refine ⟨fun a => (href a).trans (h.ref a), fun a ha => ?_, fun a ha hy hn => ?_, fun a => ?_, ?_, hnodup.2,
    fun page' hp => ?_⟩
  · have ha' : (s.file a).ref = 0 := (href a).symm.trans ha
    have haf : a ≠ f := by rintro rfl; omega
    have hag : a ≠ g := by rintro rfl; omega
    exact (congrArg File.type (hfile a haf hag)).trans (h.idle a ha')
  · replace hn : (update (update s.file f ff) g gg a).obj = none := File.obj_eq_none.mpr hn
    have hn' := (congrFun hobj a).symm.trans hn
    have hag : a ≠ g := by
      rintro rfl
      rw [update_self] at hn'
      cases hn'
    have haf : a ≠ f := by
      rintro rfl
      rw [update_of_ne hag, update_self] at hn'
      cases hn'
    rw [update_of_ne hag, update_of_ne haf] at hn'
    exact h.bound a (lt_of_lt_of_eq ha (href a)) (by simp [haf, hag, hy]) (File.obj_eq_none.mp hn')
  · change o a = s.closed a ++ (update (update s.file f ff) g gg a).obj.toList
    have hh := h.history a
    by_cases hag : a = g
    · subst hag
      rw [hfile_g, hog, hgo, hh, File.obj_eq_none.mpr hg]
      simp
    · by_cases haf : a = f
      · subst haf
        rw [hfile_f, hof, hfo, hh, File.obj_eq_none.mpr hf]
        simp
      · rw [hfile a haf hag, hother a haf hag, hh]
  · change Pipes (fun a => (update (update s.file f ff) g gg a).obj) _
    rw [hobj]
    exact h.pipes.open_ hnone (File.obj_eq_none.mpr hf) (File.obj_eq_none.mpr hg) hfg
  · have hne : page' ≠ page := fun he => hnodup.1 (he ▸ hp)
    exact (update_of_ne hne _ _).trans (h.free page' (hfree ▸ List.mem_cons_of_mem page hp))

end Files

end Xv6Boot.Kernel.SysFile
