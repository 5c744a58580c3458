import Xv6Boot.Kernel.OpenFiles

/-! # Calls on files, paths and processes

Each system call keeps the table of files; the last theorem is about a step of the kernel.
-/

namespace Xv6Boot.Kernel.SysFile
open Function Program Counting Fs Transition

variable {sb : Superblock} {s s' : Sys} {f g : Fp} {p q np initproc : Pid} {fd : Fd} {x y : List Fp} {ip : Ip}
  {E : String → Prop} {α : Type}

/-! ## Pipes -/

theorem NoFiles.withSlot {o : Option Fp} (h : NoFiles s) (hp : (s.proc p).state = .used) :
    NoFiles (s.withSlot p fd o) := by
  intro q hq fd'
  by_cases hqp : q = p
  · subst hqp
    rw [withSlot_self] at hq
    exact absurd hp hq
  · rw [withSlot_ne s fd o hqp] at hq ⊢
    exact h q hq fd'

theorem NoFiles.of_proc (h : NoFiles s) (hproc : s'.proc = s.proc) : NoFiles s' := by
  intro q hq fd'
  rw [hproc] at hq ⊢
  exact h q hq fd'

theorem closeBoth_wp (h : Files s [f, g] []) (hn : NoFiles s) :
    wp (do fileclose sb f; fileclose sb g; return (-1 : ℤ)) (fun _ s' => Settled s') OtherPanic s := by
  refine (fileclose_wp h).bind fun _ s1 hs1 => ?_
  obtain ⟨hproc1, hfiles1, -⟩ := hs1
  refine (fileclose_wp hfiles1).bind fun _ s2 hs2 => ?_
  obtain ⟨hproc2, hfiles2, -⟩ := hs2
  exact ⟨hfiles2, hn.of_proc (hproc2.trans hproc1)⟩

theorem sysPipe_wp (h : Settled s) (hp : (s.proc p).state = .used) (out : Bool) :
    wp (sysPipe sb p out) (fun _ s' => Settled s') OtherPanic s := by
  refine (pipealloc_wp h.files).bind fun r s1 hs1 => ?_
  obtain ⟨hproc1, hr⟩ := hs1
  have hn1 := h.nofiles.of_proc hproc1
  rw [← hproc1] at hp
  cases r with
  | none => exact ⟨hr, hn1⟩
  | some fs =>
    obtain ⟨rf, wf⟩ := fs
    refine fdalloc_wp.bind fun r0 s2 hs2 => ?_
    cases r0 with
    | none =>
      subst hs2
      exact closeBoth_wp hr hn1
    | some fd0 =>
      obtain ⟨hfd0, rfl⟩ := hs2
      have hfiles2 := hr.slot hfd0
      have hp2 : ((s1.withSlot p fd0 (some rf)).proc p).state = .used := by rw [withSlot_self]; exact hp
      have hself2 : ((s1.withSlot p fd0 (some rf)).proc p).ofile fd0 = some rf := by
        rw [withSlot_self]
        exact update_self ..
      have hn2 : NoFiles (s1.withSlot p fd0 (some rf)) := hn1.withSlot hp
      generalize s1.withSlot p fd0 (some rf) = s2 at *
      refine fdalloc_wp.bind fun r1 s3 hs3 => ?_
      cases r1 with
      | none =>
        subst hs3
        exact closeBoth_wp (hfiles2.unslot hself2) (hn2.withSlot hp2)
      | some fd1 =>
        obtain ⟨hfd1, rfl⟩ := hs3
        have hne : fd0 ≠ fd1 := by
          rintro rfl
          rw [hself2] at hfd1
          cases hfd1
        have hfiles3 := hfiles2.slot hfd1
        have hp3 : ((s2.withSlot p fd1 (some wf)).proc p).state = .used := by rw [withSlot_self]; exact hp2
        have hself3 : ((s2.withSlot p fd1 (some wf)).proc p).ofile fd0 = some rf := by
          rw [withSlot_self]
          exact (update_of_ne hne _ _).trans hself2
        have hother3 : ((s2.withSlot p fd1 (some wf)).proc p).ofile fd1 = some wf := by
          rw [withSlot_self]
          exact update_self ..
        have hn3 : NoFiles (s2.withSlot p fd1 (some wf)) := hn2.withSlot hp2
        generalize s2.withSlot p fd1 (some wf) = s3 at *
        cases out with
        | true => exact ⟨hfiles3, hn3⟩
        | false =>
          have hwf : ((s3.withSlot p fd0 none).proc p).ofile fd1 = some wf := by
            rw [withSlot_self]
            exact (update_of_ne hne.symm _ _).trans hother3
          have hp4 : ((s3.withSlot p fd0 none).proc p).state = .used := by rw [withSlot_self]; exact hp3
          exact closeBoth_wp (s := (s3.withSlot p fd0 none).withSlot p fd1 none)
            (((hfiles3.unslot hself3).unslot hwf).perm (List.Perm.swap ..) (List.Perm.refl _))
            ((hn3.withSlot hp3).withSlot hp4)

/-! ## Descriptors -/

theorem argfd_eq_some {n : ℤ} {r : Fd × Fp} (h : argfd s p n = some r) : (s.proc p).ofile r.1 = some r.2 := by
  unfold argfd at h
  split at h
  · obtain ⟨f, hf, rfl⟩ := Option.map_eq_some_iff.mp h
    exact hf
  · cases h

theorem sysDup_wp (h : Settled s) (hp : (s.proc p).state = .used) (n : ℤ) :
    wp (sysDup p n) (fun _ s' => Settled s') OtherPanic s := by
  rw [sysDup, wp_bind, wp_get]
  split
  · exact h
  · next fd f harg =>
    have hpos : 0 < (s.file f).ref := h.files.ref_pos_of_slot (argfd_eq_some harg)
    refine fdalloc_wp.bind fun r s1 hs1 => ?_
    cases r with
    | none =>
      subst hs1
      exact h
    | some fd' =>
      obtain ⟨hfd, rfl⟩ := hs1
      have hdup : wp (filedup f) _ OtherPanic (s.withSlot p fd' (some f)) := filedup_wp hpos
      refine hdup.bind fun _ s' hs' => ?_
      subst s'
      exact ⟨(h.files.dup hpos).slot hfd, (h.nofiles.withSlot hp).of_proc rfl⟩

theorem sysClose_wp (h : Settled s) (hp : (s.proc p).state = .used) (n : ℤ) :
    wp (sysClose sb p n) (fun _ s' => Settled s') OtherPanic s := by
  rw [sysClose, wp_bind, wp_get]
  split
  · exact h
  · next fd f harg =>
    rw [wp_bind]
    have hfiles : Files (s.withSlot p fd none) [f] [] := h.files.unslot (argfd_eq_some harg)
    refine (fileclose_wp hfiles).bind fun _ s' hs' => ?_
    exact ⟨hs'.2.1, (h.nofiles.withSlot hp).of_proc hs'.1⟩

theorem Settled.withFs (h : Settled s) (fs : State) : Settled { s with fs := fs } := ⟨h.files.withFs fs, h.nofiles⟩

theorem Settled.ofile_type (h : Settled s) (hf : (s.proc p).ofile fd = some f) : (s.file f).type ≠ .FD_NONE :=
  h.files.bound f (h.files.ref_pos_of_slot hf) List.not_mem_nil

theorem sysFstat_wp (h : Settled s) (n : ℤ) (out : Bool) :
    wp (sysFstat sb p n out) (fun _ s' => Settled s') OtherPanic s := by
  rw [sysFstat, wp_bind, wp_get]
  split
  · exact h
  · next fd f harg =>
    rw [filestat, wp_bind, wp_get]
    by_cases htype : (s.file f).type = .FD_INODE ∨ (s.file f).type = .FD_DEVICE
    · rw [if_pos htype]
      refine (onFs_wp fun _ fs₁ => h.withFs fs₁).bind fun _ s₁ h₁ => ?_
      refine (onFs_wp fun _ fs₂ => h₁.withFs fs₂).bind fun _ s₂ h₂ => ?_
      cases out <;> exact h₂
    · rw [if_neg htype]
      exact h

def File.Moved (g g' : File) : Prop := ∃ off, g' = { g with off := off }

theorem Files.setOff {g : File} (h : Files s x y) (hg : (s.file f).Moved g) : Files (s.withFile f g) x y := by
  obtain ⟨off, rfl⟩ := hg
  have hfile : ∀ a, ((s.withFile f { s.file f with off := off }).file a).obj = (s.file a).obj ∧
      ((s.withFile f { s.file f with off := off }).file a).ref = (s.file a).ref := by
    intro a
    rw [withFile_file]
    split
    · next ha => rw [ha]; exact ⟨rfl, rfl⟩
    · exact ⟨rfl, rfl⟩
  refine h.change (fun a => (hfile a).1) rfl rfl rfl rfl (fun a => (hfile a).2.trans (h.ref a)) (fun a ha => ?_)
    fun a ha hy => ?_
  · exact h.idle a ((hfile a).2.symm.trans ha)
  · exact h.bound a (ha.trans_eq (hfile a).2) hy

theorem transfer_wp {β : Type} {m : M α} {k : α → Prog Sys β} {move : α → File → File} {Q : β → Sys → Prop}
    (h : Settled s) (hmove : ∀ r (g : File), g.Moved (move r g)) [Panics m]
    (hk : ∀ r s', Settled s' → wp (k r) Q OtherPanic s') :
    wp (do
        onFs (ilock sb ip)
        let r ← onFs m
        setFile f (move r)
        onFs (iunlock ip)
        k r) Q OtherPanic s := by
  refine (onFs_wp fun _ fs₁ => h.withFs fs₁).bind fun _ s₁ h₁ => ?_
  refine (onFs_wp fun _ fs₂ => h₁.withFs fs₂).bind fun r s₂ h₂ => ?_
  rw [wp_bind, setFile, wp_modify]
  have h₃ : Settled (s₂.withFile f (move r (s₂.file f))) := ⟨h₂.files.setOff (hmove r _), h₂.nofiles⟩
  exact (onFs_wp fun _ fs₃ => h₃.withFs fs₃).bind fun _ s₄ h₄ => hk r s₄ h₄

theorem moved_ite (P : Prop) [Decidable P] (g : File) (off : BitVec 32) :
    g.Moved (if P then { g with off := off } else g) := by
  split
  · exact ⟨off, rfl⟩
  · exact ⟨g.off, rfl⟩

theorem sysRead_wp (h : Settled s) (n : ℤ) (dst : ℕ → Bool) (len : BitVec 32) (io : ℤ) :
    wp (sysRead sb p n dst len io) (fun _ s' => Settled s') OtherPanic s := by
  rw [sysRead, wp_bind, wp_get]
  split
  · exact h
  · next fd f harg =>
    rw [fileread, wp_bind, wp_get]
    by_cases hread : (s.file f).readable = false
    · rw [if_pos hread]
      exact h
    rw [if_neg hread]
    cases htype : (s.file f).type with
    | FD_NONE => exact absurd htype (h.ofile_type (argfd_eq_some harg))
    | FD_PIPE => exact h
    | FD_DEVICE =>
      simp only
      split <;> exact h
    | FD_INODE =>
      exact transfer_wp h (fun r g => moved_ite (0 < r.1) g _) fun r s' hs' => hs'

theorem filewriteLoop_wp {src : ℕ → Option Byte} {n : ℤ} {fuel i : ℕ} (h : Settled s) :
    wp (filewriteLoop sb f src n fuel i) (fun _ s' => Settled s') OtherPanic s := by
  induction fuel generalizing s i with
  | zero => exact h
  | succ fuel ih =>
    unfold filewriteLoop
    split
    · rw [wp_bind, wp_get]
      refine transfer_wp h (fun r g => moved_ite (0 < r) g _) fun r s' hs' => ?_
      split
      · exact hs'
      · exact ih hs'
    · exact h

theorem sysWrite_wp (h : Settled s) (n : ℤ) (src : ℕ → Option Byte) (len : BitVec 32) (io : ℤ) :
    wp (sysWrite sb p n src len io) (fun _ s' => Settled s') OtherPanic s := by
  rw [sysWrite, wp_bind, wp_get]
  split
  · exact h
  · next fd f harg =>
    rw [filewrite, wp_bind, wp_get]
    by_cases hwrite : (s.file f).writable = false
    · rw [if_pos hwrite]
      exact h
    rw [if_neg hwrite]
    cases htype : (s.file f).type with
    | FD_NONE => exact absurd htype (h.ofile_type (argfd_eq_some harg))
    | FD_PIPE => exact h
    | FD_DEVICE =>
      simp only
      split <;> exact h
    | FD_INODE => exact filewriteLoop_wp h

/-! ## Paths -/

theorem bindInode_wp {omode : BitVec 32} (h : Files s x (f :: y)) (htype : (s.file f).type = .FD_NONE)
    (hpos : 0 < (s.file f).ref) : wp (bindInode f ip omode) (fun _ s' => s'.proc = s.proc ∧ Files s' x y) E s := by
  rw [bindInode, wp_bind, wp_get, wp_bind, setFile, wp_modify, noteOpened, wp_modify]
  have hobj : ((s.file f).bindTo (s.fs.inode ip).d ip omode).obj = some (.inode ip) := by
    by_cases hdev : (s.fs.inode ip).d.type = T_DEVICE
    · simp [File.obj, File.bindTo, hdev]
    · simp [File.obj, File.bindTo, hdev]
  have hnone : (s.file f).obj = none := File.obj_eq_none.mpr htype
  refine ⟨rfl, ?_⟩
  refine h.rebind (g := (s.file f).bindTo (s.fs.inode ip).d ip omode) (o := update s.opened f (s.opened f ++ [.inode ip]))
    (c := s.closed) (fun a => ?_) (fun h0 => ?_) (fun _ _ hn => ?_) (fun a ha hy => ?_) ?_
    (fun a ha => ⟨update_of_ne ha _ _, rfl⟩) ?_ h.nodup h.free
  · rw [← h.ref a]
    split
    · next ha => rw [ha]; rfl
    · rfl
  · exact absurd h0 (ne_of_gt hpos)
  · rw [File.obj_eq_none.mpr hn] at hobj
    cases hobj
  · exact fun hm => (List.mem_cons.mp hm).elim ha hy
  · rw [update_self, hobj, h.history f, hnone]
    simp
  · rw [hobj]
    refine h.pipes.other (fun page w hp => ?_) fun page w hp => ?_
    · rw [hnone] at hp
      cases hp
    · cases hp

theorem sysOpen_wp (h : Settled s) (hp : (s.proc p).state = .used) (path : Option (List Byte)) (omode : BitVec 32) :
    wp (sysOpen sb p path omode) (fun _ s' => Settled s') OtherPanic s := by
  unfold sysOpen
  split
  · exact h
  · rw [wp_bind, wp_get]
    refine (onFs_wp (Q := fun _ s' => Settled s' ∧ s'.proc = s.proc)
      fun _ fs₁ => ⟨h.withFs fs₁, rfl⟩).bind fun r s1 hs1 => ?_
    obtain ⟨⟨hfiles1, hn1⟩, hproc1⟩ := hs1
    rw [← hproc1] at hp
    cases r with
    | none => exact ⟨hfiles1, hn1⟩
    | some ip =>
      refine filealloc_wp.bind fun r s2 hs2 => ?_
      cases r with
      | none =>
        subst hs2
        exact (onFs_wp fun _ fs₂ => ⟨hfiles1.withFs fs₂, hn1⟩).bind fun _ _ h₂ => h₂
      | some f =>
        obtain ⟨href, rfl⟩ := hs2
        have hfiles2 := hfiles1.alloc href
        have hself := withFile_self s1 f { s1.file f with ref := 1 }
        have htype : ((s1.withFile f { s1.file f with ref := 1 }).file f).type = .FD_NONE := by
          rw [hself]
          exact hfiles1.idle f href
        have hone : ((s1.withFile f { s1.file f with ref := 1 }).file f).ref = 1 := by rw [hself]
        have hn2 : NoFiles (s1.withFile f { s1.file f with ref := 1 }) := hn1
        have hp2 : ((s1.withFile f { s1.file f with ref := 1 }).proc p).state = .used := hp
        generalize s1.withFile f { s1.file f with ref := 1 } = s2 at *
        refine fdalloc_wp.bind fun r s3 hs3 => ?_
        cases r with
        | none =>
          subst hs3
          refine (fileclose_new hfiles2 hone).bind fun _ s3 hs3 => ?_
          exact (onFs_wp fun _ fs₄ => ⟨hs3.2.1.withFs fs₄, hn2.of_proc hs3.1⟩).bind fun _ _ h₄ => h₄
        | some fd =>
          obtain ⟨hfd, rfl⟩ := hs3
          refine (bindInode_wp (hfiles2.slot hfd) htype (hone ▸ one_pos)).bind fun _ s4 hs4 => ?_
          have h₄ : Settled s4 := ⟨hs4.2, (hn2.withSlot hp2).of_proc hs4.1⟩
          refine (onFs_wp fun _ fs₅ => h₄.withFs fs₅).bind fun _ s5 h₅ => ?_
          exact (onFs_wp fun _ fs₆ => h₅.withFs fs₆).bind fun _ _ h₆ => h₆

theorem sysLink_wp (h : Settled s) (old new : Option (List Byte)) :
    wp (sysLink sb p old new) (fun _ s' => Settled s') OtherPanic s := by
  unfold sysLink
  split
  · exact onFs_wp fun _ fs => h.withFs fs
  · exact h

theorem sysUnlink_wp (h : Settled s) (path : Option (List Byte)) :
    wp (sysUnlink sb p path) (fun _ s' => Settled s') OtherPanic s := by
  unfold sysUnlink
  split
  · exact h
  · exact onFs_wp fun _ fs => h.withFs fs

theorem sysMkdir_wp (h : Settled s) (path : Option (List Byte)) :
    wp (sysMkdir sb p path) (fun _ s' => Settled s') OtherPanic s := by
  unfold sysMkdir
  split
  · exact h
  · exact onFs_wp fun _ fs => h.withFs fs

theorem sysMknod_wp (h : Settled s) (path : Option (List Byte)) (major minor : BitVec 32) :
    wp (sysMknod sb p path major minor) (fun _ s' => Settled s') OtherPanic s := by
  unfold sysMknod
  split
  · exact h
  · exact onFs_wp fun _ fs => h.withFs fs

theorem sysExec_wp (h : Settled s) (path : Option (List Byte)) (reads : List (BitVec 32 × BitVec 32)) :
    wp (sysExec sb p path reads) (fun _ s' => Settled s') OtherPanic s := by
  unfold sysExec
  split
  · exact h
  · exact onFs_wp fun _ fs => h.withFs fs

theorem Files.withProc {q : Proc} (h : Files s x y) (hq : q.ofile = (s.proc p).ofile) :
    Files { s with proc := update s.proc p q } x y := by
  have hofiles : ({ s with proc := update s.proc p q } : Sys).ofiles = s.ofiles := by
    funext r
    by_cases hr : r.1 = p
    · simp only [Sys.ofiles, hr, update_self, hq]
    · simp only [Sys.ofiles, update_of_ne hr]
  refine ⟨fun a => ?_, h.idle, h.bound, h.history, h.pipes, h.nodup, h.free⟩
  rw [Sys.slots, hofiles]
  exact h.ref a

theorem NoFiles.withProc {q : Proc} (h : NoFiles s) (hq : q.state ≠ .used → ∀ fd, q.ofile fd = none) :
    NoFiles { s with proc := update s.proc p q } := by
  intro r (hr : (update s.proc p q r).state ≠ .used) fd'
  change (update s.proc p q r).ofile fd' = none
  by_cases hrp : r = p
  · subst hrp
    rw [update_self] at hr ⊢
    exact hq hr fd'
  · rw [update_of_ne hrp] at hr ⊢
    exact h r hr fd'

theorem sysChdir_wp (h : Settled s) (hp : (s.proc p).state = .used) (path : Option (List Byte)) :
    wp (sysChdir sb p path) (fun _ s' => Settled s') OtherPanic s := by
  unfold sysChdir
  split
  · exact h
  · rw [wp_bind, wp_get]
    refine (onFs_wp (Q := fun _ s' => Settled s' ∧ s'.proc = s.proc)
      fun _ fs₁ => ⟨h.withFs fs₁, rfl⟩).bind fun r s1 h₁ => ?_
    cases r with
    | none => exact h₁.1
    | some ip =>
      refine (onFs_wp (Q := fun _ s' => Settled s' ∧ s'.proc = s.proc)
        fun _ fs₂ => ⟨h₁.1.withFs fs₂, h₁.2⟩).bind fun _ s2 h₂ => ?_
      rw [← h₂.2] at hp
      exact ⟨h₂.1.files.withProc rfl, h₂.1.nofiles.withProc fun hq => absurd hp hq⟩

/-! ## Processes -/

/-- While `fork` copies the descriptors `rest` -/
structure Copying (s : Sys) (np : Pid) (rest : List Fd) (s' : Sys) : Prop where
  files : Files s' [] []
  others : ∀ q, q ≠ np → s'.proc q = s.proc q
  state : (s'.proc np).state = (s.proc np).state
  todo : ∀ fd ∈ rest, (s'.proc np).ofile fd = none
  nodup : rest.Nodup

theorem dupFd_wp {rest : List Fd} (h : Copying s np (fd :: rest) s') :
    wp (dupFd p np fd) (fun _ s' => Copying s np rest s') OtherPanic s' := by
  have hnodup := List.nodup_cons.mp h.nodup
  rw [dupFd, wp_bind, wp_get]
  split
  · exact { h with todo := fun a ha => h.todo a (List.mem_cons_of_mem _ ha), nodup := hnodup.2 }
  · next f hf =>
    have hpos := h.files.ref_pos_of_slot hf
    refine (filedup_wp hpos).bind fun _ s1 hs1 => ?_
    subst s1
    have hfd : (s'.proc np).ofile fd = none := h.todo fd List.mem_cons_self
    have hfiles := (h.files.dup hpos).slot hfd
    refine ⟨hfiles, fun q hq => ?_, ?_, fun a ha => ?_, hnodup.2⟩
    · exact (update_of_ne hq _ _).trans (h.others q hq)
    · exact (congrArg Proc.state (withSlot_self s' np fd (some f))).trans h.state
    · have hafd : a ≠ fd := fun he => hnodup.1 (he ▸ ha)
      refine (congrFun (congrArg Proc.ofile (withSlot_self s' np fd (some f))) a).trans ?_
      exact (update_of_ne hafd _ _).trans (h.todo a (List.mem_cons_of_mem _ ha))

theorem fork_wp (h : Settled s) (mem : Bool) : wp (fork p mem) (fun _ s' => Settled s') OtherPanic s := by
  rw [fork, wp_bind, wp_get]
  split
  · exact h
  · next np hfind =>
    have hnp := List.find?_some hfind
    simp only [decide_eq_true_eq] at hnp
    cases mem with
    | false => exact h
    | true =>
      have hstart : Copying s np (List.finRange NOFILE) s :=
        ⟨h.files, fun _ _ => rfl, rfl, fun fd _ => h.nofiles np (by rw [hnp]; nofun) fd, List.nodup_finRange _⟩
      refine (wp_forM (Copying s np) hstart fun fd rest s' hs' => dupFd_wp hs').bind fun _ s1 hs1 => ?_
      rw [wp_bind, wp_get]
      refine (onFs_wp (Q := fun _ s' => Files s' [] [] ∧ s'.proc = s1.proc)
        fun _ fs₂ => ⟨hs1.files.withFs fs₂, rfl⟩).bind fun ip s2 hs2 => ?_
      have hothers := hs1.others
      rw [← hs2.2] at hothers
      refine ⟨hs2.1.withProc rfl, fun q hq fd => ?_⟩
      by_cases hqn : q = np
      · subst hqn
        refine absurd ?_ hq
        simp
      · have hq1 : (update s2.proc np { s2.proc np with cwd := ip, state := .used } q) = s.proc q :=
          (update_of_ne hqn _ _).trans (hothers q hqn)
        refine (congrFun (congrArg Proc.ofile hq1) fd).trans (h.nofiles q (fun hu => hq ?_) fd)
        exact (congrArg Proc.state hq1).trans hu

/-- While `exit` closes the descriptors `rest` -/
structure Closing (s : Sys) (p : Pid) (rest : List Fd) (s' : Sys) : Prop where
  files : Files s' [] []
  others : ∀ q, q ≠ p → s'.proc q = s.proc q
  state : (s'.proc p).state = (s.proc p).state
  done : ∀ fd, fd ∉ rest → (s'.proc p).ofile fd = none

theorem closeFd_wp {rest : List Fd} (h : Closing s p (fd :: rest) s') :
    wp (closeFd sb p fd) (fun _ s' => Closing s p rest s') OtherPanic s' := by
  rw [closeFd, wp_bind, wp_get]
  split
  · next hnone =>
    refine { h with done := fun a ha => ?_ }
    by_cases hafd : a = fd
    · rw [hafd]
      exact hnone
    · exact h.done a fun hm => (List.mem_cons.mp hm).elim hafd ha
  · next f hf =>
    have hfiles : Files { s' with proc := (s'.withSlot p fd none).proc } [f] [] := h.files.unslot hf
    refine (fileclose_wp' hfiles).bind fun _ s1 hs1 => ?_
    obtain ⟨hproc, hfiles1, -⟩ := hs1
    rw [setOfile, setProc, wp_modify]
    have hsame : s1.withSlot p fd none = { s1 with proc := (s'.withSlot p fd none).proc } := by
      rw [Sys.withSlot, Sys.withSlot, hproc]
    change Closing s p rest (s1.withSlot p fd none)
    refine ⟨hsame ▸ hfiles1, fun q hq => ?_, ?_, fun a ha => ?_⟩
    · rw [withSlot_ne s1 fd none hq, hproc]
      exact h.others q hq
    · rw [withSlot_self, hproc]
      exact h.state
    · rw [withSlot_self]
      by_cases hafd : a = fd
      · rw [hafd]
        exact update_self ..
      · refine (update_of_ne hafd _ _).trans ?_
        rw [hproc]
        exact h.done a fun hm => (List.mem_cons.mp hm).elim hafd ha

theorem exit_wp (h : Settled s) : wp (exit sb initproc p) (fun _ s' => Settled s') OtherPanic s := by
  unfold exit
  split
  · exact Or.inr rfl
  · have hstart : Closing s p (List.finRange NOFILE) s :=
      ⟨h.files, fun _ _ => rfl, rfl, fun fd hfd => absurd (List.mem_finRange fd) hfd⟩
    refine (wp_forM (Closing s p) hstart fun fd rest s' hs' => closeFd_wp hs').bind fun _ s1 hs1 => ?_
    rw [wp_bind, wp_get]
    have hn1 : NoFiles s1 := by
      intro q hq fd
      by_cases hqp : q = p
      · rw [hqp]
        exact hs1.done fd List.not_mem_nil
      · rw [hs1.others q hqp] at hq ⊢
        exact h.nofiles q hq fd
    refine (onFs_wp (Q := fun _ s' => Settled s' ∧ s'.proc = s1.proc)
      fun _ fs₂ => ⟨⟨hs1.files.withFs fs₂, hn1⟩, rfl⟩).bind fun _ s2 h₂ => ?_
    exact ⟨h₂.1.files.withProc rfl, h₂.1.nofiles.withProc fun _ fd => h₂.2 ▸ hs1.done fd List.not_mem_nil⟩

theorem wait_wp (h : Settled s) (child : Pid) : wp (wait child) (fun _ s' => Settled s') OtherPanic s := by
  rw [wait, wp_bind, wp_get]
  split
  · next hz =>
    have hz' : (s.proc child).state ≠ .used := by rw [hz]; nofun
    exact ⟨h.files.withProc rfl, h.nofiles.withProc fun _ => h.nofiles child hz'⟩
  · exact h

theorem run_wp (h : Settled s) (hp : (s.proc p).state = .used) (c : Call) :
    wp (run sb initproc p c) (fun _ s' => Settled s') OtherPanic s := by
  cases c with
  | open_ path omode => exact sysOpen_wp h hp path omode
  | close fd => exact sysClose_wp h hp fd
  | dup fd => exact sysDup_wp h hp fd
  | pipe out => exact sysPipe_wp h hp out
  | read fd dst n io => exact sysRead_wp h fd dst n io
  | write fd src n io => exact sysWrite_wp h fd src n io
  | fstat fd out => exact sysFstat_wp h fd out
  | link old new => exact sysLink_wp h old new
  | unlink path => exact sysUnlink_wp h path
  | mkdir path => exact sysMkdir_wp h path
  | mknod path major minor => exact sysMknod_wp h path major minor
  | chdir path => exact sysChdir_wp h hp path
  | exec path reads => exact sysExec_wp h path reads
  | fork mem => exact fork_wp h mem
  | exit => exact exit_wp h
  | wait child => exact wait_wp h child

/-! ## Runs -/

theorem step_settled (h : Settled s) {e : Event} :
    (∀ s', step sb initproc s e = .next s' → Settled s') ∧ ∀ msg, step sb initproc s e = .panic msg → OtherPanic msg := by
  cases e with
  | pages l =>
    simp only [step]
    split
    · next hl =>
      refine ⟨?_, nofun⟩
      rintro _ ⟨⟩
      refine ⟨⟨h.files.ref, h.files.idle, h.files.bound, h.files.history, h.files.pipes, hl.1, fun page hp => ?_⟩,
        h.nofiles⟩
      exact Option.isNone_iff_eq_none.mp (hl.2 page hp)
    · exact ⟨nofun, nofun⟩
  | call p c =>
    simp only [step]
    split
    · next hp =>
      have hrun : wp (run sb initproc p c) (fun _ s' => Settled s') OtherPanic s := run_wp h hp c
      cases hr : run sb initproc p c s with
      | ok r =>
        refine ⟨?_, nofun⟩
        rintro _ ⟨⟩
        exact hrun.of_ok hr
      | error msg =>
        refine ⟨nofun, ?_⟩
        rintro _ ⟨⟩
        exact hrun.of_error hr
    · exact ⟨nofun, nofun⟩

end Xv6Boot.Kernel.SysFile
