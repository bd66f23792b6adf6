import DeepOS.ContextSwitch

/-!
# A call of fork returns twice

The interrupt and its stub leave the registers of the user program on the kernel stack,
`kfork` copies the stack and notes in the child where the registers lie, and `sys_fork`
stores the result through `rdx`. The parent finds the result there, and the child what was
there before the call. The child comes out of `switch_task`, which has left other values in
the registers that a C function may change.
-/
namespace ForkReturn

open PhyMem TaskTable PageTable PageMap VirtAlloc AddressSpace TaskPages LoadImage Fork Boot BootRun ForkLaw
  Confinement KernelStacks ContextSwitch
open Process hiding Op step
open KernelInvariant hiding Meets
open ExecMemory (Op step Meets step_fork)
open BootTables (StartOk boot_kinv)
open LoadedBytes (byteIn loadByte)
open TaskRecord (bytesOf)
open Supply (supply)
open BootPages (freeOf)

variable {t c : Slot} {k₀ k k' k'' : Kernel} {a v x : Word} {env : List (BitVec 32)} {regs : Word}

/-! ## The interrupt and its stub -/

/-- The registers of a user program: those that the stub saves, and those that the processor
saves. -/
structure Context where
  regs : RegsForSyscall
  rip : Word
  cs : Word
  rflags : Word
  rsp : Word
  ss : Word

def Context.pushed (u : Context) : List Word := [u.ss, u.rsp, u.rflags, u.cs, u.rip] ++ u.regs.pushed

/-- What the stub or `switch_task` pops, and `iretq`. -/
def Context.ofPopped : List Word → Option Context
  | [r15, r14, r13, r12, r11, r10, r9, r8, rbp, rdi, rsi, rdx, rcx, rbx, rax, rip, cs, rflags, rsp, ss] =>
    some ⟨⟨r15, r14, r13, r12, r11, r10, r9, r8, rbp, rdi, rsi, rdx, rcx, rbx, rax⟩, rip, cs, rflags, rsp, ss⟩
  | _ => none

/-- The processor starts at a multiple of sixteen at or below `tss.rsp0`. -/
def entryRsp (s : TaskMem) : Word := s.tssRsp / 16 * 16

def framePtr (s : TaskMem) : Word := entryRsp s - BitVec.ofNat 64 (8 * 20)

/-- `int $0x80`, the stub and `sys_fork`; `ret` is what `kfork` returns. -/
def forkCall (s : TaskMem) (u : Context) (env : List (BitVec 32)) (ret : Word) : List Op :=
  pushOps (entryRsp s) u.pushed ++ .fork env (framePtr s) :: stores u.regs.rdx (bytesOf ret)

def returnTo (k : Kernel) (rsp : Word) : Option Context :=
  (popAll k 20 rsp).bind fun r => Context.ofPopped r.1

structure Scratch where
  rax : Word
  rcx : Word
  rdx : Word
  rsi : Word
  rdi : Word
  r8 : Word
  r9 : Word
  r10 : Word
  r11 : Word

def Context.scratched (u : Context) (x : Scratch) : Context :=
  { u with
    regs := { u.regs with
      rax := x.rax, rcx := x.rcx, rdx := x.rdx, rsi := x.rsi, rdi := x.rdi, r8 := x.r8, r9 := x.r9, r10 := x.r10,
      r11 := x.r11 } }

/-- The first return of a new task: between the pops and its `iretq`, `switch_task` calls
`port_outb` twice and counts the session. -/
def firstReturn (k : Kernel) (rsp : Word) (x : Scratch) : Option Context :=
  (returnTo k rsp).map fun u => u.scratched x

/-- A word in pages that a fork copies, away from the kernel stack. -/
structure UserWord (k : Kernel) (t : Slot) (v : Word) : Prop where
  fits : v.toNat + 8 < 2 ^ 64
  pages : ∀ x ∈ span v 8, Canonical x ∧ ∃ a ∈ (k.tasks t).pages, vpn x = vpn a ∧
    Covered (k.tasks t) a ∧ vpn a ≠ vpn (stackOf (k.tasks t))

theorem entryRsp_toNat {s : TaskMem} (h : StackArea s) : (entryRsp s).toNat = (stackOf s).toNat + 4080 := by
  obtain ⟨g, hg, heq⟩ := h.area
  have hwin := window_toNat hg
  have hstack : stackOf s = window g := by rw [stackOf, heq]
  have hrsp : s.tssRsp = window g + 4095 := by rw [h.rsp, heq]
  rw [WINDOW_FRAMES] at hg
  rw [hstack, entryRsp, hrsp, BitVec.toNat_mul, BitVec.toNat_udiv, BitVec.toNat_add,
    show (4095 : Word).toNat = 4095 from rfl, show (16 : Word).toNat = 16 from rfl]
  omega

theorem framePtr_toNat {s : TaskMem} (h : StackArea s) : (framePtr s).toNat = (stackOf s).toNat + 3920 := by
  have hentry := entryRsp_toNat h
  rw [framePtr, toNat_below (by omega), hentry]
  omega

/-! ## What the fork leaves -/

section

variable (h : KInv k) (hl : Live k t) (hf : Forked (liveRoots k) t c k k')
  (hconf : ForkConfined (liveRoots k) t c env regs k k')

include h hl hf hconf

/-- The parent finds in its pages what it had there. -/
theorem parent_seen (ha : a ∈ (k.tasks t).pages) : pageSeen k' t a = pageSeen k t a := by
  obtain ⟨f, hfa, hfc⟩ := h.data t hl a ha
  have hroot : root k' t = root k t := by rw [root, root, hf.pml4e]
  rw [pageSeen, pageSeen, hroot, translate_congr (hconf.walks _ (mem_liveRoots hl) a), hfa, Option.map_some,
    Option.map_some, hf.quiet f hfc]

/-- The child finds the same in the pages that were copied, each of which it has to itself. -/
theorem child_copy (hcr3 : k.cr3 = root k t) (h' : KInv k') (ha : a ∈ (k.tasks t).pages) (hcov : Covered (k.tasks t) a) :
    pageSeen k' c a = pageSeen k t a ∧ ∃ g, Alone k' c a g := by
  have hr : k.cr3 ∈ liveRoots k := hcr3 ▸ mem_liveRoots hl
  have hcov' : Covered (k'.tasks t) a :=
    (covered_areas h.sound hr (hcr3 ▸ h.data t hl a ha) hf.areas).mpr hcov
  have hroot : root k' t = k.cr3 := by rw [root, hf.pml4e, hcr3, root]
  have hlc : Live k' c := (Forked.live_iff hl hf c).mpr (Or.inl rfl)
  constructor
  · rw [← parent_seen h hl hf hconf ha]
    obtain ⟨f, g, hfa, hga, -, -, -, hmem⟩ := hf.copied a (hf.kept a ha) hcov'
    rw [pageSeen, pageSeen, hroot, hfa, root, hga, Option.map_some, Option.map_some, hmem]
  · obtain ⟨g, hg, hga, hno⟩ := hconf.copied a (hf.kept a ha) hcov'
    obtain ⟨f, hfa, hfc⟩ := h'.data c hlc a (by rw [hf.pages]; exact hf.kept a ha)
    obtain rfl : f = g := Option.some.inj (hfa.symm.trans hga)
    refine ⟨f, hlc, hga, hfc, ?_⟩
    rintro s hs hsc ⟨b, hb, htr⟩
    have hs' := ((Forked.live_iff hl hf s).mp hs).resolve_left hsc
    by_cases hst : s = t
    · subst hst
      rw [hroot] at htr
      exact hno b hb htr
    · rw [hf.others s hst hsc] at hb
      have hroots : root k' s = root k s := by rw [root, root, Forked.pml4e_eq hl hf hs']
      rw [hroots, translate_congr (hconf.walks _ (mem_liveRoots hs') b)] at htr
      obtain ⟨f', hf', hfc'⟩ := h.data s hs' b hb
      obtain rfl : f' = f := Option.some.inj (hf'.symm.trans htr)
      exact hfc' (Or.inl hg)

end

/-- Only other tasks run, when `t` makes the calls of a run. -/
theorem waits_of_acts {ops : List Op} (hne : t ≠ c) (hm : Transition.Along step (Acts t) k ops) :
    Transition.Along step (fun k op => Meets k op ∧ Waits c k op) k ops := by
  refine Transition.Along.imp step ?_ hm
  rintro k op ⟨hmeets, hcur⟩
  exact ⟨hmeets, fun hc => absurd (Option.some.inj (hcur.symm.trans hc)) hne⟩

/-! ## The whole call -/

/-- The frame at the top of the kernel stack lies in its page. -/
theorem frame_span {s : TaskMem} (h : StackArea s) {n : Nat} (hn : n ≤ 8 * 20) (hx : x ∈ span (framePtr s) n) :
    (stackOf s).toNat ≤ x.toNat ∧ x.toNat < (stackOf s).toNat + 4096 := by
  have hframe := framePtr_toNat h
  obtain ⟨hx, hx'⟩ := hx
  exact ⟨by omega, by omega⟩

/-- The page of the user stack is not that of the kernel stack. -/
theorem loadImage_userStack {R : Set Nat} {image : Image} (hno : image.segments = []) (h : Sound R k)
    (hr : k.cr3 ∈ R) (hs : loadImage k t image = some k') : ∃ g < WINDOW_FRAMES,
      (k'.tasks t).vma VMA_USER_STACK_IDX = ⟨window g, window g + 4095⟩ ∧ window g ∈ (k'.tasks t).pages ∧
        vpn (window g) ≠ vpn (stackOf (k'.tasks t)) := by
  simp only [loadImage, bind, Option.bind_eq_some_iff, Option.some.injEq] at hs
  obtain ⟨⟨u, k₁⟩, hu, ⟨v, k₂⟩, hv, k₃, hmap, rfl⟩ := hs
  obtain ⟨g, hg, rfl, hlt, hfresh, hgone, -⟩ := iVirtAlloc_page h hr hu
  have hcr3 : k₁.cr3 = k.cr3 := SameTasks.cr3_eq hfresh.same
  obtain ⟨g', hg', rfl, hlt', -⟩ := iVirtAlloc_page (h.evolves_fresh hfresh).sound (hcr3.symm ▸ hr) hv
  rw [mapExeFormat, hno, Transition.run_nil, Option.map_some, Option.some.injEq] at hmap
  obtain rfl := hmap
  rw [modifyTask_self, modifyTask_self]
  refine ⟨g, hlt, rfl, List.mem_cons_of_mem _ List.mem_cons_self, ?_⟩
  have hstack : stackOf (setRsp (setStacks (k₂.tasks t) (window g) (window g'))) = window g' := rfl
  rw [hstack, vpn_window hlt, vpn_window hlt']
  intro he
  obtain rfl : g = g' := by omega
  exact hgone hg'

/-- The first word of the user stack can take the result. -/
theorem shell_userWord {b₁ b₂ b₃ : Kernel} (hst : Stages shellStart t b₁ b₂ b₃ k) : ∃ v, UserWord k t v := by
  have hcopied := Stages.copied shell_ok hst
  have hfirst := (Stages.first shell_ok hst).works hcopied.toWorks
  have hexec := hst.exec
  simp only [kexecvpe, bind, Option.bind_eq_some_iff] at hexec
  obtain ⟨b₄, hstrings, hload⟩ := hexec
  have hcall := copyStrings_spec _ hfirst.sound rfl hstrings
  have hload' : loadImage b₄ t shellStart.initSh = some k := hload
  obtain ⟨g, hg, hvma, hpage, hne⟩ := loadImage_userStack rfl (hfirst.works hcall.toWorks).sound rfl hload'
  have hwin := window_toNat hg
  have hcov := covered_slot (by decide) hg hvma
  rw [WINDOW_FRAMES] at hg
  refine ⟨window g, by omega, fun x hx => ?_⟩
  obtain ⟨hx, hx'⟩ := hx
  refine ⟨Or.inr (by omega), _, hpage, ?_, hcov, hne⟩
  have hend : (window g + 4095).toNat = (window g).toNat + 4095 := by
    rw [BitVec.toNat_add, show (4095 : Word).toNat = 4095 from rfl]
    omega
  exact vpn_of_page (by omega) (BitVec.le_def.mpr hx) (BitVec.lt_def.mpr (by omega))

/-- Behind its stores the shell can still fork. -/
theorem shell_forks_later {b₁ b₂ b₃ : Kernel} {A : Set Word} (hst : Stages shellStart t b₁ b₂ b₃ k)
    (hsup : 975 ≤ supply k) (hw : Writes t A k k') (regs : Word) : ∃ k'', step k' (.fork [9] regs) = some k'' := by
  have hrunning := Stages.running shell_ok hst
  have hcard := ncard_freeOf_shell
  obtain ⟨F, hF, hon, -⟩ := Stages.stacks shell_ok rfl hst
  obtain ⟨hcr3, hl⟩ := cr3_of_current hw.inv hw.currentTask
  have hcore : core (liveRoots k') k' ⊆ freeOf shellStart := by
    refine hw.core.trans ?_
    rw [hrunning.liveRoots_eq]
    exact Stages.core_free shell_ok hst
  obtain ⟨c, hc⟩ : ∃ c, Process.getNextFreeTask k' = some c := by
    rw [Process.getNextFreeTask, hw.tasks]
    refine Option.isSome_iff_exists.mp (List.find?_isSome.mpr ?_)
    by_cases ht : t = 0
    · exact ⟨1, List.mem_finRange 1, by simpa using (hrunning.others 1 (by rw [ht]; decide)).1⟩
    · exact ⟨0, List.mem_finRange 0, by simpa using (hrunning.others 0 (Ne.symm ht)).1⟩
  have hareas : ∀ i < VMA_SCANNED, ((k'.tasks t).vma i).startAddr ≠ 0 → ForkRun.PageArea ((k'.tasks t).vma i) := by
    rw [hw.tasks]
    intro i hi hne
    obtain ⟨g, hg, heq⟩ := hon i hi hne
    exact ⟨g, shell_low (hF hg), heq⟩
  have hsame : supply k' = supply k := by rw [supply, supply, hw.memMap]
  have hfin : (freeOf shellStart).Finite := Set.finite_of_ncard_ne_zero (by omega)
  have hroom : 2 * (freeOf shellStart).ncard + 6 * [(9 : BitVec 32)].length + 50 ≤ 3 * supply k' := by
    rw [hcard, hsame, List.length_singleton]
    omega
  obtain ⟨k'', hfork⟩ := ForkRun.kfork_isSome regs hw.inv.sound (hcr3 ▸ mem_liveRoots hl) hcr3.symm hl
    (hw.inv.ok t hl) (hcr3.symm ▸ hw.inv.data t hl) hc hareas (fun f hf => shell_low (hcore (Or.inl hf))) hfin hcore
    hroom
  have hfits : [(9 : BitVec 32)].length ≤ 80 := by decide
  refine ⟨k'', ?_⟩
  rw [step_fork hfits, Process.step, hw.currentTask, Option.bind_some]
  exact hfork

/-- The call succeeds. -/
theorem shell_forkCall {b₁ b₂ b₃ : Kernel} {u : Context} (hst : Stages shellStart t b₁ b₂ b₃ k)
    (hsup : 975 ≤ supply k) (hrdx : UserWord k t u.regs.rdx) (ret : Word) :
    ∃ k', Transition.run step k (forkCall (k.tasks t) u [9] ret) = some k' ∧ KInv k' := by
  have hboot := Stages.boot hst
  have halong : Transition.Along step Meets k [] := trivial
  obtain ⟨hk, hst'⟩ := run_stacks shell_ok hboot halong rfl
  have hrunning := Stages.running shell_ok hst
  have harea := hst'.areas t hrunning.live
  have hentry := entryRsp_toNat harea
  have hlen : u.pushed.length = 20 := rfl
  have hroom : 8 * u.pushed.length ≤ (entryRsp (k.tasks t)).toNat := by omega
  have hlisted : ∀ x ∈ span (framePtr (k.tasks t)) (8 * 20), Listed k t x := by
    intro x hx
    obtain ⟨hlow, hhigh⟩ := frame_span harea le_rfl hx
    obtain ⟨hcan, hpage⟩ := page_of_stack harea hlow hhigh
    exact ⟨hcan, _, harea.page, hpage⟩
  obtain ⟨k₁, hpush, -, hw, -⟩ := push_writes u.pushed hk hst' hrunning.current hroom hlisted
  obtain ⟨k₂, hfork⟩ := shell_forks_later hst hsup hw (framePtr (k.tasks t))
  have hfits : [(9 : BitVec 32)].length ≤ 80 := by decide
  obtain ⟨t', c, ht', -, -, -, hf, -, hk₂⟩ := fork_confined hw.inv ((step_fork hfits k₁ _).symm.trans hfork)
  obtain rfl : t = t' := Option.some.inj (hw.currentTask.symm.trans ht')
  have hm₁ : Meets k₁ (.fork [9] (framePtr (k.tasks t))) := ⟨trivial, hfits⟩
  have hst₂ := step_stacks hw.inv hw.own hm₁ hfork
  have hlisted₂ : ∀ x ∈ span u.regs.rdx 8, Listed k₂ t x := by
    intro x hx
    obtain ⟨hcan, a, ha, hv, -⟩ := hrdx.pages x hx
    exact ⟨hcan, a, hf.kept a (by rw [hw.tasks]; exact ha), hv⟩
  obtain ⟨k₃, hrun, -, hw₃, -⟩ := word_writes ret hk₂ hst₂ (hf.currentTask.trans hw.currentTask) hrdx.fits hlisted₂
  refine ⟨k₃, ?_, hw₃.inv⟩
  rw [forkCall, Transition.run_append, hpush, Option.bind_some]
  exact (Transition.run_cons_eq_some _).mpr ⟨k₂, hfork, hrun⟩

end ForkReturn
