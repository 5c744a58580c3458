import Xv6Boot.Kernel.FileTable
import Xv6Boot.Kernel.FsPanics

/-! # Open files

`file.c` and `pipe.c` keep the table of files in order. What the functions of `fs.c` do in between does not matter.
-/

namespace Xv6Boot.Kernel.SysFile
open Function Program Counting Fs Transition

variable {sb : Superblock} {s s' : Sys} {f g : Fp} {p q np initproc : Pid} {fd : Fd} {x y : List Fp} {page : ℕ}
  {w : Bool} {ip : Ip} {E : String → Prop} {α : Type}

def OtherPanic (msg : String) : Prop := msg ∈ panics ∨ msg = "init exiting"

theorem OtherPanic.ne {msg : String} (h : OtherPanic msg) : msg ≠ "filedup" ∧ msg ≠ "fileclose" := by
  constructor
  · rintro rfl
    revert h
    unfold OtherPanic
    decide
  · rintro rfl
    revert h
    unfold OtherPanic
    decide

theorem onFs_wp {m : M α} {Q : α → Sys → Prop} [h : Panics m] (hQ : ∀ a fs, Q a { s with fs := fs }) :
    wp (onFs m) Q OtherPanic s := by
  have hwp : wp (onFs m) Q OtherPanic s ↔ wp m (fun a fs => Q a { s with fs := fs }) OtherPanic s.fs := by
    unfold wp onFs
    cases m s.fs <;> rfl
  exact hwp.mpr ((h.out s.fs).imp (fun a fs _ => hQ a fs) fun _ he => Or.inl he)

def NoFiles (s : Sys) : Prop := ∀ p, (s.proc p).state ≠ .used → ∀ fd, (s.proc p).ofile fd = none

/-- Between system calls -/
structure Settled (s : Sys) : Prop where
  files : Files s [] []
  nofiles : NoFiles s

/-! ## `file.c` -/

theorem filealloc_wp :
    wp filealloc (fun r s' =>
      match r with
      | none => s' = s
      | some f => (s.file f).ref = 0 ∧ s' = s.withFile f { s.file f with ref := 1 }) E s := by
  rw [filealloc, wp_bind, wp_get]
  cases hfind : (List.finRange NFILE).find? fun f => decide ((s.file f).ref = 0) with
  | none => exact rfl
  | some f =>
    have h0 := List.find?_some hfind
    simp only [decide_eq_true_eq] at h0
    exact ⟨h0, rfl⟩

theorem fdalloc_wp :
    wp (fdalloc p f) (fun r s' =>
      match r with
      | none => s' = s
      | some fd => (s.proc p).ofile fd = none ∧ s' = s.withSlot p fd (some f)) E s := by
  rw [fdalloc, wp_bind, wp_get]
  cases hfind : (List.finRange NOFILE).find? fun fd => decide ((s.proc p).ofile fd = none) with
  | none => exact rfl
  | some fd =>
    have h0 := List.find?_some hfind
    simp only [decide_eq_true_eq] at h0
    exact ⟨h0, rfl⟩

theorem filedup_wp (hf : 0 < (s.file f).ref) :
    wp (filedup f) (fun _ s' => s' = s.withFile f { s.file f with ref := (s.file f).ref + 1 }) E s := by
  rw [filedup, wp_bind, wp_get, if_neg (by omega)]
  rfl

theorem pipeclose_wp {pi : Pipe} {Q : PUnit → Sys → Prop} (hpi : s.pipe page = some pi)
    (hQ : ∀ free, (free = s.freelist ∨ free = page :: s.freelist ∧ closeEnd s.pipe page w page = none) →
      Q ⟨⟩ { s with pipe := closeEnd s.pipe page w, freelist := free }) :
    wp (pipeclose page w) Q E s := by
  rw [pipeclose, wp_bind, wp_get, hpi]
  have hval : closeEnd s.pipe page w = update s.pipe page
      (if (pi.shut w).readopen = false ∧ (pi.shut w).writeopen = false then none else some (pi.shut w)) := by
    rw [closeEnd, hpi]
    rfl
  change wp (if (pi.shut w).readopen = false ∧ (pi.shut w).writeopen = false then kfree page
    else modify fun s => { s with pipe := update s.pipe page (some (pi.shut w)) }) Q E s
  split
  · next hboth =>
    rw [if_pos hboth] at hval
    have h := hQ (page :: s.freelist) (Or.inr ⟨rfl, by rw [hval, update_self]⟩)
    rw [hval] at h
    exact h
  · next hopen =>
    rw [if_neg hopen] at hval
    have h := hQ s.freelist (Or.inl rfl)
    rw [hval] at h
    exact h

theorem Files.cleared {c : Fp → List Obj} {pipe : ℕ → Option Pipe} {free : List ℕ} (h : Files s (f :: x) y)
    (h1 : (s.file f).ref = 1) (hself : s.opened f = c f) (hother : ∀ a, a ≠ f → c a = s.closed a)
    (hpipes : Pipes (update (fun a => (s.file a).obj) f none) pipe) (hnodup : free.Nodup)
    (hfree : ∀ page ∈ free, pipe page = none) :
    Files { s.withFile f { s.file f with ref := 0, type := .FD_NONE } with
      pipe := pipe, freelist := free, opened := s.opened, closed := c } x y := by
  refine h.rebind (fun a => ?_) (fun _ => rfl) (fun h0 => absurd h0 (lt_irrefl _)) (fun _ _ hy => hy) ?_
    (fun a ha => ⟨rfl, hother a ha⟩) hpipes hnodup hfree
  · have hr := h.ref a
    rw [Files.count_cons_ite] at hr
    split
    · next ha =>
      rw [if_pos ha, ha] at hr
      rw [ha]
      simp only
      omega
    · next ha =>
      rw [if_neg ha] at hr
      omega
  · simpa [File.obj] using hself

variable {pr : Pid → Proc}

-- `pr`: the descriptors may be set to what they will be before or after the file is closed
theorem releaseFile_wp (h : Files { s with proc := pr } (f :: x) y) (h1 : (s.file f).ref = 1) :
    wp (releaseFile sb f (s.file f)) (fun _ s' => s'.proc = s.proc ∧ Files { s' with proc := pr } x y ∧
      s'.file = (s.withFile f { s.file f with ref := 0, type := .FD_NONE }).file) OtherPanic
      (s.withFile f { s.file f with ref := 0, type := .FD_NONE }) := by
  have hhist : s.opened f = s.closed f ++ (s.file f).obj.toList := h.history f
  -- an inode is put
  have hinode : ∀ ip, (s.file f).obj = some (.inode ip) →
      wp (do noteClosed f (.inode ip); onFs (iput sb ip)) (fun _ s' => s'.proc = s.proc ∧
        Files { s' with proc := pr } x y ∧ s'.file = (s.withFile f { s.file f with ref := 0, type := .FD_NONE }).file)
        OtherPanic (s.withFile f { s.file f with ref := 0, type := .FD_NONE }) := by
    intro ip hobj
    rw [hobj] at hhist
    have hfiles : Files { s.withFile f { s.file f with ref := 0, type := .FD_NONE } with
        proc := pr
        closed := update s.closed f (s.closed f ++ [.inode ip]) } x y := by
      refine h.cleared h1 ?_ (fun a ha => update_of_ne ha ..) (h.pipes.other (fun page w hp => ?_) nofun)
        h.nodup h.free
      · rw [update_self]
        exact hhist
      · rw [hobj] at hp
        cases hp
    rw [wp_bind, noteClosed, wp_modify]
    exact onFs_wp fun _ fs => ⟨rfl, hfiles.withFs fs, rfl⟩
  unfold releaseFile
  cases htype : (s.file f).type with
  | FD_NONE =>
    have hobj : (s.file f).obj = none := File.obj_eq_none.mpr htype
    rw [hobj, Option.toList_none, List.append_nil] at hhist
    refine ⟨rfl, ?_, rfl⟩
    refine h.cleared h1 hhist (fun _ _ => rfl) (h.pipes.other (fun page w hp => ?_) nofun) h.nodup h.free
    rw [hobj] at hp
    cases hp
  | FD_INODE => exact hinode (s.file f).ip (by simp [File.obj, htype])
  | FD_DEVICE => exact hinode (s.file f).ip (by simp [File.obj, htype])
  | FD_PIPE =>
    have hobj : (s.file f).obj = some (.pipe (s.file f).pipe (s.file f).writable) := by simp [File.obj, htype]
    rw [hobj] at hhist
    obtain ⟨pi, hpi⟩ := Option.isSome_iff_exists.mp (h.pipes.live f _ _ hobj)
    rw [wp_bind, noteClosed, wp_modify]
    refine pipeclose_wp hpi fun free hfree => ⟨rfl, ?_, rfl⟩
    refine h.cleared h1 ?_ (fun a ha => update_of_ne ha ..) (h.pipes.close hobj) ?_ ?_
    · exact hhist.trans (update_self f (s.closed f ++ [.pipe (s.file f).pipe (s.file f).writable]) s.closed).symm
    · rcases hfree with rfl | ⟨rfl, -⟩
      · exact h.nodup
      · refine List.nodup_cons.mpr ⟨fun hm => ?_, h.nodup⟩
        rw [h.free _ hm] at hpi
        cases hpi
    · -- a page of the list is no pipe's, or it is the page just freed
      intro page hpage
      by_cases hp : page = (s.file f).pipe
      · rcases hfree with rfl | ⟨-, hnone⟩
        · rw [hp] at hpage
          rw [h.free _ hpage] at hpi
          cases hpi
        · rw [hp]
          exact hnone
      · change closeEnd s.pipe (s.file f).pipe (s.file f).writable page = none
        rw [closeEnd, update_of_ne hp]
        refine h.free page ?_
        rcases hfree with rfl | ⟨rfl, -⟩
        · exact hpage
        · exact (List.mem_cons.mp hpage).resolve_left hp

theorem fileclose_wp' (h : Files { s with proc := pr } (f :: x) y) :
    wp (fileclose sb f) (fun _ s' => s'.proc = s.proc ∧ Files { s' with proc := pr } x y ∧
      (s'.file f).ref = (s.file f).ref - 1 ∧ ∀ a, a ≠ f → s'.file a = s.file a) OtherPanic s := by
  have hpos : 0 < (s.file f).ref := h.ref_pos
  rw [fileclose, wp_bind, wp_get, if_neg (by omega)]
  split
  · next hmore =>
    refine ⟨rfl, h.less (by simp only; omega), ?_, fun a ha => update_of_ne ha ..⟩
    exact congrArg File.ref (withFile_self s f { s.file f with ref := (s.file f).ref - 1 })
  · next hlast =>
    rw [wp_bind, setFile, wp_modify]
    refine (releaseFile_wp h (by omega)).mono fun _ s' hs' => ?_
    obtain ⟨hproc, hfiles, hfile⟩ := hs'
    refine ⟨hproc, hfiles, ?_, fun a ha => ?_⟩
    · rw [hfile, withFile_self]
      simp only
      omega
    · rw [hfile]
      exact update_of_ne ha ..

theorem fileclose_wp (h : Files s (f :: x) y) :
    wp (fileclose sb f) (fun _ s' => s'.proc = s.proc ∧ Files s' x y ∧
      (s'.file f).ref = (s.file f).ref - 1 ∧ ∀ a, a ≠ f → s'.file a = s.file a) OtherPanic s := by
  have h' : Files { s with proc := s.proc } (f :: x) y := h
  refine (fileclose_wp' h').mono fun _ s' hs' => ?_
  obtain ⟨hproc, hfiles, href, hfile⟩ := hs'
  rw [← hproc] at hfiles
  exact ⟨hproc, hfiles, href, hfile⟩

theorem fileclose_new (h : Files s (f :: x) (f :: y)) (h1 : (s.file f).ref = 1) :
    wp (fileclose sb f) (fun _ s' => s'.proc = s.proc ∧ Files s' x y ∧ ∀ a, a ≠ f → s'.file a = s.file a) OtherPanic s := by
  refine (fileclose_wp h).mono fun _ s' hs' => ?_
  obtain ⟨hproc, hfiles, href, hfile⟩ := hs'
  exact ⟨hproc, hfiles.forget (by omega), hfile⟩

/-! ## Pipes -/

theorem bindPipe_wp {rest : List ℕ} (h : Files s x (f :: g :: y)) (hfg : f ≠ g)
    (hf : (s.file f).type = .FD_NONE) (hg : (s.file g).type = .FD_NONE) (hf0 : 0 < (s.file f).ref)
    (hg0 : 0 < (s.file g).ref) (hfree : s.freelist = page :: rest) :
    wp (bindPipe f g page) (fun _ s' => s'.proc = s.proc ∧ Files s' x y) E { s with freelist := rest } := by
  have hg' : ∀ ff, update s.file f ff g = s.file g := fun ff => update_of_ne hfg.symm ..
  refine ⟨rfl, h.openPipe hfg hf hg hf0 hg0 hfree rfl ?_ rfl rfl ?_ ?_ fun a haf hag => ?_⟩
  · have hr := congrArg File.ref
      (hg' { s.file f with type := .FD_PIPE, readable := true, writable := false, pipe := page })
    exact hr
  · exact (update_of_ne hfg _ _).trans (update_self f (s.opened f ++ [.pipe page false]) s.opened)
  · refine (update_self g _ _).trans ?_
    exact congrArg (· ++ [Obj.pipe page true]) (update_of_ne hfg.symm _ _)
  · exact (update_of_ne hag _ _).trans (update_of_ne haf _ _)

theorem pipealloc_wp (h : Files s [] []) :
    wp (pipealloc sb) (fun r s' => s'.proc = s.proc ∧
      match r with
      | none => Files s' [] []
      | some (f0, f1) => Files s' [f0, f1] []) OtherPanic s := by
  refine filealloc_wp.bind fun r0 s1 h1 => ?_
  cases r0 with
  | none =>
    subst h1
    exact ⟨rfl, h⟩
  | some f0 =>
    obtain ⟨href0, rfl⟩ := h1
    have hfiles1 := h.alloc href0
    have hf0 := withFile_self s f0 { s.file f0 with ref := 1 }
    have ht0 := h.idle f0 href0
    refine filealloc_wp.bind fun r1 s2 h2 => ?_
    cases r1 with
    | none =>
      subst h2
      refine (fileclose_new hfiles1 (by rw [hf0])).bind fun _ s' hs' => ?_
      exact ⟨hs'.1, hs'.2.1⟩
    | some f1 =>
      obtain ⟨href1, rfl⟩ := h2
      have hne : f0 ≠ f1 := by
        rintro rfl
        rw [hf0] at href1
        cases href1
      generalize hs1 : s.withFile f0 { s.file f0 with ref := 1 } = s1 at *
      have hfiles2 := hfiles1.alloc href1
      have hf1 := withFile_self s1 f1 { s1.file f1 with ref := 1 }
      have ht1 := hfiles1.idle f1 href1
      have hf0' : (s1.withFile f1 { s1.file f1 with ref := 1 }).file f0 = { s.file f0 with ref := 1 } := by
        rw [withFile_file, if_neg hne, hf0]
      have hproc : (s1.withFile f1 { s1.file f1 with ref := 1 }).proc = s.proc := by
        rw [← hs1]
        rfl
      generalize s1.withFile f1 { s1.file f1 with ref := 1 } = s2 at *
      rw [wp_bind, kalloc, wp_bind, wp_get]
      split
      · -- no page: both files are given up
        refine (fileclose_new (hfiles2.perm (List.Perm.swap ..) (List.Perm.swap ..)) (by rw [hf0'])).bind
          fun _ s3 hs3 => ?_
        obtain ⟨hproc3, hfiles3, hfile3⟩ := hs3
        have hf1' : s3.file f1 = { s1.file f1 with ref := 1 } := (hfile3 f1 hne.symm).trans hf1
        refine (fileclose_new hfiles3 (by rw [hf1'])).bind fun _ s' hs' => ?_
        exact ⟨hs'.1.trans (hproc3.trans hproc), hs'.2.1⟩
      · next page rest hfree =>
        rw [wp_bind, wp_set, wp_pure]
        refine (bindPipe_wp (hfiles2.perm (List.Perm.refl _) (List.Perm.swap ..)) hne (by rw [hf0']; exact ht0)
          (by rw [hf1]; exact ht1) (by rw [hf0']; exact one_pos) (by rw [hf1]; exact one_pos) hfree).bind fun _ s' hs' => ?_
        exact ⟨hs'.1.trans hproc, hs'.2.perm (List.Perm.swap ..) (List.Perm.refl _)⟩

end Xv6Boot.Kernel.SysFile
