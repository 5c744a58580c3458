import Xv6Boot.Kernel.FileCalls

/-! # Open files are accounted for

From a kernel that has opened nothing, whatever the file system is like: between calls a file's count is the number of
descriptors on it, and what a file was opened on has been let go once for each time the count reached zero.
-/

namespace Xv6Boot.Kernel.SysFile
open Program Counting Fs Transition

/-- A kernel that has opened no file yet. -/
structure Unopened (s : Sys) : Prop where
  file : ∀ f, (s.file f).ref = 0 ∧ (s.file f).type = .FD_NONE
  proc : ∀ p fd, (s.proc p).ofile fd = none
  pipe : ∀ page, s.pipe page = none
  nodup : s.freelist.Nodup
  opened : ∀ f, s.opened f = [] ∧ s.closed f = []

structure Accounted (s : Sys) : Prop where
  /-- the count is the number of descriptors -/
  ref : ∀ f, (s.file f).ref = s.slots f
  /-- a file is open on something exactly while its count is positive -/
  live : ∀ f, (s.file f).obj.isSome = true ↔ 0 < (s.file f).ref
  /-- everything else it was opened on has been let go, once -/
  released : ∀ f, s.opened f = s.closed f ++ (s.file f).obj.toList
  /-- the end of a pipe is open exactly while a file with a count is that end -/
  ends : ∀ page pi, s.pipe page = some pi →
    (pi.readopen = true ↔ ∃ f, 0 < (s.file f).ref ∧ (s.file f).obj = some (.pipe page false)) ∧
    (pi.writeopen = true ↔ ∃ f, 0 < (s.file f).ref ∧ (s.file f).obj = some (.pipe page true))
  /-- a page holds a pipe exactly while one of its files has a count -/
  pages : ∀ page, (s.pipe page).isSome = true ↔ ∃ f w, 0 < (s.file f).ref ∧ (s.file f).obj = some (.pipe page w)
  /-- no page of a pipe is free, and no page is free twice -/
  free : (∀ page ∈ s.freelist, s.pipe page = none) ∧ s.freelist.Nodup

theorem Unopened.settled {s : Sys} (h : Unopened s) : Settled s := by
  have hobj : ∀ f, (s.file f).obj = none := fun f => File.obj_eq_none.mpr (h.file f).2
  have hslots : ∀ f, s.slots f = 0 := by
    intro f
    by_contra hne
    obtain ⟨q, hq⟩ := count_pos_iff.mp (Nat.pos_of_ne_zero hne)
    simp [Sys.ofiles, h.proc] at hq
  refine ⟨⟨fun f => ?_, fun f _ => (h.file f).2, fun f hf => ?_, fun f => ?_, ?_, h.nodup, fun page _ => h.pipe page⟩,
    fun p _ fd => h.proc p fd⟩
  · rw [(h.file f).1, hslots]
    rfl
  · rw [(h.file f).1] at hf
    exact absurd hf (lt_irrefl 0)
  · rw [(h.opened f).1, (h.opened f).2, hobj]
    rfl
  · refine ⟨fun page pi hpi => ?_, fun f page w hf => ?_, fun page pi hpi => ?_, fun f g page w hf => ?_⟩
    · rw [h.pipe] at hpi
      cases hpi
    · simp only [hobj] at hf
      cases hf
    · rw [h.pipe] at hpi
      cases hpi
    · simp only [hobj] at hf
      cases hf

theorem Files.accounted {s : Sys} (h : Files s [] []) : Accounted s := by
  have hlive : ∀ f, (s.file f).obj.isSome = true ↔ 0 < (s.file f).ref := by
    intro f
    rw [Option.isSome_iff_ne_none, Ne, File.obj_eq_none]
    constructor
    · intro hn
      exact lt_of_le_of_ne (h.ref_nonneg f) fun h0 => hn (h.idle f h0.symm)
    · exact fun hpos => h.bound f hpos List.not_mem_nil
  have hpos : ∀ f o, (s.file f).obj = some o → 0 < (s.file f).ref := fun f o ho => (hlive f).mp (by rw [ho]; rfl)
  have hend : ∀ page w, (∃ f, (s.file f).obj = some (.pipe page w)) ↔
      ∃ f, 0 < (s.file f).ref ∧ (s.file f).obj = some (.pipe page w) := fun page w =>
    exists_congr fun f => ⟨fun ho => ⟨hpos f _ ho, ho⟩, fun ho => ho.2⟩
  refine ⟨fun f => ?_, hlive, h.history, fun page pi hpi => ?_, fun page => ⟨fun hp => ?_, ?_⟩, h.free, h.nodup⟩
  · rw [h.ref f, List.count_nil]
    exact add_zero _
  · rw [← hend, ← hend]
    exact h.pipes.ends page pi hpi
  · obtain ⟨pi, hpi⟩ := Option.isSome_iff_exists.mp hp
    obtain ⟨hread, hwrite⟩ := h.pipes.ends page pi hpi
    rcases h.pipes.kept page pi hpi with ho | ho
    · obtain ⟨f, hf⟩ := hread.mp ho
      exact ⟨f, false, hpos f _ hf, hf⟩
    · obtain ⟨f, hf⟩ := hwrite.mp ho
      exact ⟨f, true, hpos f _ hf, hf⟩
  · rintro ⟨f, w, -, hf⟩
    exact h.pipes.live f page w hf

theorem Run.settled {sb : Superblock} {initproc : Pid} {s₀ s : Sys} {es : List Event} (h₀ : Settled s₀)
    (hrun : Run (step sb initproc) anyAction s₀ es s) : Settled s :=
  hrun.stateInvariant h₀ fun _ _ _ h _ hs => (step_settled h).1 _ hs

theorem open_file_accounting (sb : Superblock) (initproc : Pid) (s₀ s : Sys) (es : List Event) (h₀ : Unopened s₀)
    (hrun : Run (step sb initproc) anyAction s₀ es s) :
    Accounted s ∧ ∀ e msg, step sb initproc s e = .panic msg → msg ≠ "filedup" ∧ msg ≠ "fileclose" := by
  have hset := Run.settled h₀.settled hrun
  exact ⟨hset.files.accounted, fun e msg hp => ((step_settled hset).2 msg hp).ne⟩

def bootSys : Sys where
  fs := ⟨fun _ _ => 0, fun _ _ => 0, [], fun _ => ⟨0, 0, false, Dinode.zero⟩⟩
  file _ := ⟨.FD_NONE, 0, false, false, 0, 0, 0, 0⟩
  pipe _ := none
  freelist := [7]
  proc p := ⟨if p = 0 then .used else .unused, 0, fun _ => none⟩
  opened _ := []
  closed _ := []

def pipeRun : List Event :=
  [.call 0 (.pipe true), .call 0 (.fork true), .call 0 (.close 1), .call 1 .exit, .call 0 (.close 0), .call 0 (.wait 1)]

theorem pipeRun_accounted : ∃ s, Run (step ⟨8, 4, 2, 2, 3⟩ 0) anyAction bootSys pipeRun s ∧ Accounted s ∧
    (s.closed 1 = [.pipe 7 true] ∧ s.freelist = [7]) := by
  have hcheck : (exec (step ⟨8, 4, 2, 2, 3⟩ 0) pipeRun bootSys).check
      (fun s => decide (s.closed 1 = [.pipe 7 true] ∧ s.freelist = [7])) = true := by decide +kernel
  obtain ⟨s, hs, hp⟩ := exists_of_check _ _ _ _ hcheck
  have hrun := Run.of_exec (admitted_anyAction _ _) hs
  have h₀ : Unopened bootSys := by
    exact ⟨fun _ => ⟨rfl, rfl⟩, fun _ _ => rfl, fun _ => rfl, List.nodup_singleton 7, fun _ => ⟨rfl, rfl⟩⟩
  exact ⟨s, hrun, (open_file_accounting _ 0 bootSys s pipeRun h₀ hrun).1, of_decide_eq_true hp⟩

end Xv6Boot.Kernel.SysFile
