import DeepOS.Elf

/-!
# The memory limit

`brk` counts a page once and each of the two mappings of `i_virt_alloc` counts one
more, but the limit is tested against a single page. Counters have 32 bits.
-/
namespace MemLimit

open PhyMem TaskTable PageTable PageMap VirtAlloc Process Transition
open Elf (smallMachine)

/-! ## The system calls -/

def sysSbrk (k : Kernel) (t : Slot) : Option (Word × Kernel) := brk k t

def sysKmalloc (k : Kernel) (t : Slot) (rdx : Word) : Option (Word × Kernel) :=
  kmalloc k t (rdx.setWidth 32)

/-- `lim` of `sys_ulimit`; the argument is in kilobytes. -/
def limitOf (rdx : Word) : BitVec 32 := rdx.setWidth 32 * 1024

def sysUlimit (k : Kernel) (t : Slot) (rdx : Word) : Kernel :=
  if k.currentMemUsage t > limitOf rdx then k
  else modifyTask k t fun s => { s with memLimit := limitOf rdx }

inductive Call where
  | sbrk
  | kmalloc (rdx : Word)
  | ulimit (rdx : Word)

def step (t : Slot) (k : Kernel) : Call → Option Kernel
  | .sbrk => (sysSbrk k t).map Prod.snd
  | .kmalloc rdx => (sysKmalloc k t rdx).map Prod.snd
  | .ulimit rdx => some (sysUlimit k t rdx)

/-! ## What is asked of a call -/

def Granted (k : Kernel) (t : Slot) : Prop :=
  ¬ k.currentMemUsage t + 4096 > (k.tasks t).memLimit

def NeedsPage (k : Kernel) (t : Slot) (size : BitVec 32) : Prop :=
  (k.tasks t).curPtr = 0 ∨ (k.tasks t).curPtr + size.setWidth 64 > (k.tasks t).heapEnd

instance decidableGranted (k : Kernel) (t : Slot) : Decidable (Granted k t) :=
  inferInstanceAs (Decidable (¬ _))

instance decidableNeedsPage (k : Kernel) (t : Slot) (size : BitVec 32) : Decidable (NeedsPage k t size) :=
  inferInstanceAs (Decidable (_ ∨ _))

def CallsBrk (k : Kernel) (t : Slot) : Call → Prop
  | .sbrk => True
  | .kmalloc rdx => NeedsPage k t (rdx.setWidth 32)
  | .ulimit _ => False

/-- The limit is kept, a page from `brk` counts once, nothing else counts, and no
counter has wrapped. -/
structure Enforced (t : Slot) (k : Kernel) (call : Call) (k' : Kernel) : Prop where
  limit : k'.currentMemUsage t ≤ (k'.tasks t).memLimit
  page : CallsBrk k t call → Granted k t →
    (k'.currentMemUsage t).toNat = (k.currentMemUsage t).toNat + 4096
  rest : ¬(CallsBrk k t call ∧ Granted k t) → k'.currentMemUsage t = k.currentMemUsage t
  kilobytes : ∀ rdx, call = .ulimit rdx → k.currentMemUsage t ≤ limitOf rdx →
    (k'.tasks t).memLimit.toNat = rdx.toNat * 1024

/-- `brk` refuses, and a limit that is accepted lies below 4 GB. -/
def Meets (t : Slot) (k : Kernel) : Call → Prop
  | .ulimit rdx => k.currentMemUsage t ≤ limitOf rdx → rdx.toNat < 2 ^ 22
  | call => CallsBrk k t call → ¬ Granted k t

/-! ## Counting -/

variable {k k' : Kernel} {t : Slot}

structure Counts (t : Slot) (n : BitVec 32) (k k' : Kernel) : Prop where
  usage : k'.currentMemUsage t = k.currentMemUsage t + n
  same : SameTasks k k'

theorem Counts.refl (t : Slot) (k : Kernel) : Counts t 0 k k := ⟨(BitVec.add_zero _).symm, SameTasks.refl k⟩

theorem Counts.trans {k₁ : Kernel} {m n : BitVec 32} (h : Counts t m k k₁) (h' : Counts t n k₁ k') :
    Counts t (m + n) k k' :=
  ⟨by rw [h'.usage, h.usage, BitVec.add_assoc], h.same.trans h'.same⟩

theorem pageAlloc_counts {p : Word} (h : k.pageAlloc = some (p, k')) : Counts t 0 k k' := by
  obtain ⟨g, -, -, rfl⟩ := pageAlloc_some h
  exact ⟨(Counts.refl t k).usage, ⟨rfl, rfl, rfl⟩⟩

theorem nextTable_counts {table table' : Word} {i : Fin 512} (h : nextTable k table i = some (table', k')) :
    Counts t 0 k k' := by
  rw [nextTable] at h
  split at h
  · obtain ⟨-, rfl⟩ := Prod.mk.inj (Option.some.inj h)
    exact Counts.refl t k
  · rw [Option.map_eq_some_iff] at h
    obtain ⟨⟨p, k₁⟩, halloc, hres⟩ := h
    obtain ⟨-, rfl⟩ := Prod.mk.inj hres
    have hcount : Counts t 0 k k₁ := pageAlloc_counts halloc
    exact ⟨hcount.usage, hcount.same.trans ⟨rfl, rfl, rfl⟩⟩

theorem descend_counts (p : List (Fin 512)) :
    ∀ {k k' : Kernel} {table table' : Word}, descend k table p = some (table', k') → Counts t 0 k k' := by
  induction p with
  | nil =>
    intro k k' table table' h
    obtain ⟨-, rfl⟩ := Prod.mk.inj (Option.some.inj h)
    exact Counts.refl t k
  | cons i p ih =>
    intro k k' table table' h
    rw [descend, Option.bind_eq_some_iff] at h
    obtain ⟨⟨table₁, k₁⟩, h₁, h⟩ := h
    exact (nextTable_counts h₁).trans (ih h)

/-- A mapping for the running task counts one page. -/
theorem mapProcess_counts {v p : Word} (ht : k.currentTask = some t) (h : mapProcess k v p = some k') :
    Counts t 4096 k k' := by
  rw [mapProcess, ht, mapProcessSpecific_eq, Option.map_eq_some_iff] at h
  obtain ⟨⟨table, k₁⟩, hd, rfl⟩ := h
  have hcharge : Counts t 4096 k (charge k (some t)) := ⟨Function.update_self .., ⟨rfl, rfl, rfl⟩⟩
  have hcount : Counts t 4096 k k₁ := hcharge.trans (descend_counts (pathOf v) hd)
  exact ⟨hcount.usage, hcount.same.trans ⟨rfl, rfl, rfl⟩⟩

theorem allocPage_counts {v : Word} (ht : k.currentTask = some t) (h : allocPage k = some (v, k')) :
    Counts t 4096 k k' := by
  simp only [allocPage, bind, Option.bind_eq_some_iff] at h
  obtain ⟨⟨p, k₁⟩, halloc, k₂, hmap, k₃, hset, hres⟩ := h
  obtain ⟨-, rfl⟩ := Prod.mk.inj (Option.some.inj hres)
  rw [memsetPage, Option.map_eq_some_iff] at hset
  obtain ⟨f, -, rfl⟩ := hset
  have h₁ : Counts t 0 k k₁ := pageAlloc_counts halloc
  have h₂ := h₁.trans (mapProcess_counts (h₁.same.currentTask.trans ht) hmap)
  exact ⟨h₂.usage, h₂.same.trans ⟨rfl, rfl, rfl⟩⟩

/-- `i_virt_alloc` counts two pages. -/
theorem iVirtAlloc_counts {v : Word} (ht : k.currentTask = some t) (h : iVirtAlloc k = some (v, k')) :
    Counts t 8192 k k' := by
  simp only [iVirtAlloc, bind, Option.bind_eq_some_iff] at h
  obtain ⟨⟨v₁, k₁⟩, h₁, h₂⟩ := h
  have hfirst := allocPage_counts ht h₁
  exact hfirst.trans (allocPage_counts (hfirst.same.currentTask.trans ht) h₂)

/-- The counter, the limit and the running task are as they were, `n` pages apart. -/
structure Usage (t : Slot) (n : BitVec 32) (k k' : Kernel) : Prop where
  usage : k'.currentMemUsage t = k.currentMemUsage t + n
  limit : (k'.tasks t).memLimit = (k.tasks t).memLimit
  current : k'.currentTask = k.currentTask

theorem Counts.usageOf {n : BitVec 32} (h : Counts t n k k') : Usage t n k k' :=
  ⟨h.usage, by rw [h.same.tasks], h.same.currentTask⟩

theorem Usage.trans {k₁ : Kernel} {m n : BitVec 32} (h : Usage t m k k₁) (h' : Usage t n k₁ k') :
    Usage t (m + n) k k' :=
  ⟨by rw [h'.usage, h.usage, BitVec.add_assoc], h'.limit.trans h.limit, h'.current.trans h.current⟩

/-- Fields other than the limit do not count. -/
theorem modifyTask_usage (k : Kernel) {change : TaskMem → TaskMem}
    (h : ∀ s, (change s).memLimit = s.memLimit) : Usage t 0 k (modifyTask k t change) := by
  refine ⟨(BitVec.add_zero _).symm, ?_, rfl⟩
  show (Function.update k.tasks t (change (k.tasks t)) t).memLimit = (k.tasks t).memLimit
  rw [Function.update_self, h]

theorem addToVma_usage (first last : Word) : Usage t 0 k (addToVma k t first last) := by
  rw [addToVma]
  split
  · exact modifyTask_usage k fun _ => rfl
  · exact ⟨(BitVec.add_zero _).symm, rfl, rfl⟩

/-- A page that is granted counts three times. -/
theorem brk_usage {v : Word} (ht : k.currentTask = some t) (h : brk k t = some (v, k'))
    (hg : Granted k t) : Usage t 12288 k k' := by
  rw [brk, if_neg hg, Option.map_eq_some_iff] at h
  obtain ⟨⟨v₁, k₁⟩, halloc, hres⟩ := h
  obtain ⟨-, rfl⟩ := Prod.mk.inj hres
  have hpages := (iVirtAlloc_counts ht halloc).usageOf
  have hgain : Usage t 0 k₁ (gain k₁ t v₁) := modifyTask_usage k₁ fun _ => rfl
  have hvma := hgain.trans (addToVma_usage v₁ (v₁ + 4095))
  have hcharge : Usage t 4096 (addToVma (gain k₁ t v₁) t v₁ (v₁ + 4095))
      (charge (addToVma (gain k₁ t v₁) t v₁ (v₁ + 4095)) (some t)) :=
    ⟨Function.update_self .., rfl, rfl⟩
  exact (hpages.trans hvma).trans hcharge

theorem brk_refused {v : Word} (h : brk k t = some (v, k')) (hg : ¬ Granted k t) : v = 0 ∧ k' = k := by
  rw [brk, if_pos (not_not.mp hg), Option.some.injEq, Prod.mk.injEq] at h
  exact ⟨h.1.symm, h.2.symm⟩

/-- The page `kmalloc` goes on with. -/
theorem heapPage_usage {size : BitVec 32} {r : Word × Word × Kernel} (ht : k.currentTask = some t)
    (h : heapPage k t size = some r) :
    Usage t (if NeedsPage k t size ∧ Granted k t then 12288 else 0) k r.2.2 := by
  rw [heapPage] at h
  split at h
  · rename_i hneed
    rw [growHeap, Option.map_eq_some_iff] at h
    obtain ⟨⟨v, k₁⟩, hbrk, rfl⟩ := h
    by_cases hg : Granted k t
    · rw [if_pos ⟨hneed, hg⟩]
      exact (brk_usage ht hbrk hg).trans (addToVma_usage _ _)
    · obtain ⟨-, rfl⟩ := brk_refused hbrk hg
      rw [if_neg fun hn => hg hn.2]
      exact addToVma_usage _ _
  · rename_i hroom
    rw [if_neg fun hn => hroom hn.1]
    obtain rfl := Option.some.inj h
    exact ⟨(BitVec.add_zero _).symm, rfl, rfl⟩

theorem kmalloc_usage {size : BitVec 32} {v : Word} (ht : k.currentTask = some t)
    (h : kmalloc k t size = some (v, k')) :
    Usage t (if NeedsPage k t size ∧ Granted k t then 12288 else 0) k k' := by
  rw [kmalloc, Option.map_eq_some_iff] at h
  obtain ⟨r, hpage, hres⟩ := h
  have husage := heapPage_usage ht hpage
  split at hres
  · obtain ⟨-, rfl⟩ := Prod.mk.inj hres
    exact husage
  · obtain ⟨-, rfl⟩ := Prod.mk.inj hres
    have hcur : Usage t 0 r.2.2 (modifyTask r.2.2 t fun s =>
        { s with curPtr := r.1 + size.setWidth 64, heapEnd := r.2.1 }) :=
      modifyTask_usage r.2.2 fun _ => rfl
    have hboth := husage.trans hcur
    rwa [show ∀ n : BitVec 32, n + 0 = n from fun n => BitVec.add_zero n] at hboth

/-! ## Each call -/

/-- Where `brk` is asked and grants, the count is off by two pages. -/
theorem enforced_page_iff {call : Call} (hcall : ∀ rdx, call ≠ .ulimit rdx)
    (hle : k.currentMemUsage t ≤ (k.tasks t).memLimit)
    (hpaid : CallsBrk k t call → Granted k t → Usage t 12288 k k')
    (hfree : ¬(CallsBrk k t call ∧ Granted k t) → Usage t 0 k k') :
    Enforced t k call k' ↔ (CallsBrk k t call → ¬ Granted k t) := by
  constructor
  · intro h hbrk hg
    have hpage := h.page hbrk hg
    rw [(hpaid hbrk hg).usage, BitVec.toNat_add, show (12288 : BitVec 32).toNat = 12288 from rfl] at hpage
    have hlt := (k.currentMemUsage t).isLt
    omega
  · intro h
    have husage := hfree fun hboth => h hboth.1 hboth.2
    have hsame : k'.currentMemUsage t = k.currentMemUsage t := husage.usage.trans (BitVec.add_zero _)
    refine ⟨?_, fun hbrk hg => absurd hg (h hbrk), fun _ => hsame, fun rdx hr => absurd hr (hcall rdx)⟩
    rw [hsame, husage.limit]
    exact hle

theorem limitOf_toNat (rdx : Word) : (limitOf rdx).toNat = rdx.toNat * 1024 % 2 ^ 32 := by
  rw [limitOf, BitVec.toNat_mul, BitVec.toNat_setWidth, show (1024 : BitVec 32).toNat = 1024 from rfl,
    Nat.mod_mul_mod]

/-- An accepted limit is the argument exactly when the product does not wrap. -/
theorem enforced_ulimit_iff {rdx : Word} (hle : k.currentMemUsage t ≤ (k.tasks t).memLimit) :
    Enforced t k (.ulimit rdx) (sysUlimit k t rdx) ↔ Meets t k (.ulimit rdx) := by
  have hacc : k.currentMemUsage t > limitOf rdx ↔ ¬ k.currentMemUsage t ≤ limitOf rdx := BitVec.not_le.symm
  rw [sysUlimit]
  split
  · rename_i hrej
    have hno := hacc.mp hrej
    refine ⟨fun _ ha => absurd ha hno, fun _ => ⟨hle, fun hb => hb.elim, fun _ => rfl, ?_⟩⟩
    intro rdx' hr ha
    cases hr
    exact absurd ha hno
  · rename_i hrej
    have ha : k.currentMemUsage t ≤ limitOf rdx := not_not.mp fun hno => hrej (hacc.mpr hno)
    have hset : ((modifyTask k t fun s => { s with memLimit := limitOf rdx }).tasks t).memLimit =
        limitOf rdx := by
      show (Function.update k.tasks t { k.tasks t with memLimit := limitOf rdx } t).memLimit = limitOf rdx
      rw [Function.update_self]
    constructor
    · intro h _
      have hkb := h.kilobytes rdx rfl ha
      rw [hset, limitOf_toNat] at hkb
      have := Nat.mod_lt (rdx.toNat * 1024) (by decide : 0 < 2 ^ 32)
      omega
    · intro h
      have hsmall := h ha
      refine ⟨by rw [hset]; exact ha, fun hb => hb.elim, fun _ => rfl, fun rdx' hr _ => ?_⟩
      cases hr
      rw [hset, limitOf_toNat]
      omega

theorem enforced_iff {call : Call} (ht : k.currentTask = some t)
    (hle : k.currentMemUsage t ≤ (k.tasks t).memLimit) (hs : step t k call = some k') :
    Enforced t k call k' ↔ Meets t k call := by
  cases call with
  | sbrk =>
    simp only [step, sysSbrk, Option.map_eq_some_iff] at hs
    obtain ⟨⟨v, k₁⟩, hbrk, rfl⟩ := hs
    refine enforced_page_iff (fun _ => nofun) hle (fun _ hg => brk_usage ht hbrk hg) fun hno => ?_
    obtain ⟨-, rfl⟩ := brk_refused hbrk fun hg => hno ⟨trivial, hg⟩
    exact ⟨(BitVec.add_zero _).symm, rfl, rfl⟩
  | kmalloc rdx =>
    simp only [step, sysKmalloc, Option.map_eq_some_iff] at hs
    obtain ⟨⟨v, k₁⟩, hkmalloc, rfl⟩ := hs
    have husage := kmalloc_usage ht hkmalloc
    refine enforced_page_iff (fun _ => nofun) hle (fun hneed hg => ?_) fun hno => ?_
    · rwa [if_pos (show NeedsPage k t (rdx.setWidth 32) ∧ Granted k t from ⟨hneed, hg⟩)] at husage
    · rwa [if_neg (show ¬(NeedsPage k t (rdx.setWidth 32) ∧ Granted k t) from hno)] at husage
  | ulimit rdx =>
    obtain rfl := Option.some.inj hs
    exact enforced_ulimit_iff hle

theorem step_current {call : Call} (ht : k.currentTask = some t) (hs : step t k call = some k') :
    k'.currentTask = some t := by
  cases call with
  | sbrk =>
    simp only [step, sysSbrk, Option.map_eq_some_iff] at hs
    obtain ⟨⟨v, k₁⟩, hbrk, rfl⟩ := hs
    by_cases hg : Granted k t
    · exact (brk_usage ht hbrk hg).current.trans ht
    · obtain ⟨-, rfl⟩ := brk_refused hbrk hg
      exact ht
  | kmalloc rdx =>
    simp only [step, sysKmalloc, Option.map_eq_some_iff] at hs
    obtain ⟨⟨v, k₁⟩, hkmalloc, rfl⟩ := hs
    exact (kmalloc_usage ht hkmalloc).current.trans ht
  | ulimit rdx =>
    obtain rfl := Option.some.inj hs
    rw [sysUlimit]
    split
    · exact ht
    · exact ht

/-- The limit is enforced at every step of a run exactly when `brk` never grants a
page and every limit that is accepted lies below 4 GB. -/
theorem limit_enforced_iff (ht : k.currentTask = some t)
    (hle : k.currentMemUsage t ≤ (k.tasks t).memLimit) {calls : List Call}
    (hr : run (step t) k calls = some k') :
    Along (step t) (fun k call => ∀ k', step t k call = some k' → Enforced t k call k') k calls ↔
      Along (step t) (Meets t) k calls := by
  refine along_congr (step t) (P := fun k => k.currentTask = some t ∧
    k.currentMemUsage t ≤ (k.tasks t).memLimit) ?_ ?_ ⟨ht, hle⟩ hr
  · rintro k call k' ⟨ht, hle⟩ hs
    rw [← enforced_iff ht hle hs]
    refine ⟨fun h => h k' hs, fun h k₁ hs₁ => ?_⟩
    obtain rfl := Option.some.inj (hs.symm.trans hs₁)
    exact h
  · rintro k call k' ⟨ht, -⟩ h hs
    exact ⟨step_current ht hs, (h k' hs).limit⟩

def onePage : Kernel :=
  { smallMachine with
    tasks := fun _ => { TaskMem.zero with memLimit := 4096 }
    currentTask := some 0 }

/-- With a limit of three kilobytes no page is granted. -/
theorem limit_enforced_three_kilobytes :
    ∃ k', run (step 0) onePage [.ulimit 3, .sbrk, .kmalloc 16] = some k' ∧
      Along (step 0) (fun k call => ∀ k', step 0 k call = some k' → Enforced 0 k call k') onePage
        [.ulimit 3, .sbrk, .kmalloc 16] := by
  obtain ⟨k', hr⟩ : ∃ k', run (step 0) onePage [.ulimit 3, .sbrk, .kmalloc 16] = some k' := ⟨_, rfl⟩
  refine ⟨k', hr, (limit_enforced_iff rfl (by decide) hr).mpr ?_⟩
  refine ⟨fun _ => by decide, fun k₁ h₁ => ⟨fun _ => ?_, fun k₂ h₂ => ⟨fun _ => ?_, fun _ _ => trivial⟩⟩⟩
  · obtain rfl := Option.some.inj h₁
    decide
  · obtain rfl := Option.some.inj h₁
    obtain rfl := Option.some.inj h₂
    decide

/-- One page takes a task with a limit of 4096 bytes to 12288, and a limit of 4 GB is
set as 0. -/
theorem limit_not_enforced :
    onePage.currentMemUsage 0 ≤ (onePage.tasks 0).memLimit ∧
    (run (step 0) onePage [.sbrk]).map (fun k => (k.currentMemUsage 0, (k.tasks 0).memLimit)) =
      some (12288, 4096) ∧
    (run (step 0) onePage [.ulimit 0x400000]).map (fun k => (k.tasks 0).memLimit) = some 0 := by
  refine ⟨by decide, by decide +kernel, by decide⟩

end MemLimit
