import DeepOS.KernelStacks

/-!
# Saved registers

A task that enters the kernel or is switched away from leaves its registers on its kernel
stack, and `kfork` gives the child a copy of them. Each push is a run of stores of the task
itself, so what the other tasks may do in between is any run of the kernel in which it waits.
-/
namespace ContextSwitch

open PhyMem TaskTable PageTable PageMap VirtAlloc AddressSpace TaskPages LoadImage Fork Boot BootRun ForkLaw
  Confinement KernelStacks
open Process hiding Op step
open KernelInvariant hiding Meets
open ExecMemory (Op step Meets kexecvpe_front step_fork kinv_step)
open BootTables (StartOk)
open TaskRecord (bytesOf)
open LoadedBytes (getByte getByte_setByte byteIn byteIn_put loadByte eq_of_place)

variable {t c : Slot} {k₀ k k' k'' : Kernel} {a v x : Word} {w : Word}

/-! ## Words as bytes -/

def wordOf (bs : List (BitVec 8)) : Word :=
  (List.range 8).foldl (fun w i => setByte w i (bs.getD i 0)) 0

theorem eq_of_getByte {w w' : Word} (h : ∀ j < 8, getByte w j = getByte w' j) : w = w' := by
  apply BitVec.eq_of_getLsbD_eq
  intro n hn
  have hbyte := congrArg (fun b => b.getLsbD (n % 8)) (h (n / 8) (by omega))
  have hsplit : 8 * (n / 8) + n % 8 = n := by omega
  simpa [getByte, hsplit, Nat.mod_lt] using hbyte

theorem getByte_wordOf (bs : List (BitVec 8)) {j : Nat} (hj : j < 8) : getByte (wordOf bs) j = bs.getD j 0 := by
  have hfold : ∀ n, n ≤ 8 → j < n →
      getByte ((List.range n).foldl (fun w i => setByte w i (bs.getD i 0)) 0) j = bs.getD j 0 := by
    intro n
    induction n with
    | zero =>
      intro _ h0
      omega
    | succ n ih =>
      intro hn hjn
      rw [List.range_succ, List.foldl_append, List.foldl_cons, List.foldl_nil, getByte_setByte _ (by omega) hj]
      by_cases h : j = n
      · rw [if_pos h, h]
      · rw [if_neg h]
        exact ih (by omega) (by omega)
  exact hfold 8 le_rfl hj

theorem wordOf_bytesOf (w : Word) : wordOf (bytesOf w) = w := by
  refine eq_of_getByte fun j hj => ?_
  rw [getByte_wordOf _ hj, bytesOf, List.getD_eq_getElem?_getD, List.getElem?_map, List.getElem?_range hj]
  rfl

/-! ## Loads and stores of several bytes -/

def stores (v : Word) : List (BitVec 8) → List Op
  | [] => []
  | b :: bs => .store v b :: stores (v + 1) bs

def loadBytes (k : Kernel) : Word → Nat → Option (List (BitVec 8))
  | _, 0 => some []
  | v, n + 1 => do
    let b ← loadByte k v
    let bs ← loadBytes k (v + 1) n
    some (b :: bs)

def loadWord (k : Kernel) (v : Word) : Option Word := (loadBytes k v 8).map wordOf

def span (v : Word) (n : Nat) : Set Word := {x | v.toNat ≤ x.toNat ∧ x.toNat < v.toNat + n}

def Acts (t : Slot) (k : Kernel) (op : Op) : Prop := Meets k op ∧ k.currentTask = some t

/-- The address lies in a page that the task has obtained, and the processor accepts it. -/
def Listed (k : Kernel) (t : Slot) (x : Word) : Prop := Canonical x ∧ ∃ a ∈ (k.tasks t).pages, vpn x = vpn a

structure Writes (t : Slot) (A : Set Word) (k k' : Kernel) : Prop where
  inv : KInv k'
  own : StacksInv k'
  tasks : k'.tasks = k.tasks
  currentTask : k'.currentTask = some t
  memMap : k'.memMap = k.memMap
  core : core (liveRoots k') k' ⊆ core (liveRoots k) k
  rest : ∀ x, Listed k t x → x ∉ A → loadByte k' x = loadByte k x

theorem Writes.trans {A B C : Set Word} (h : Writes t A k k') (h' : Writes t B k' k'') (hsub : A ∪ B ⊆ C) :
    Writes t C k k'' where
  inv := h'.inv
  own := h'.own
  tasks := h'.tasks.trans h.tasks
  currentTask := h'.currentTask
  memMap := h'.memMap.trans h.memMap
  core := h'.core.trans h.core
  rest := by
    intro x hx hxC
    have hx' : Listed k' t x := by
      rw [Listed, h.tasks]
      exact hx
    rw [h'.rest x hx' (fun hB => hxC (hsub (Or.inr hB))), h.rest x hx (fun hA => hxC (hsub (Or.inl hA)))]

theorem writes_refl (h : KInv k) (hst : StacksInv k) (ht : k.currentTask = some t) : Writes t ∅ k k :=
  ⟨h, hst, rfl, ht, rfl, subset_rfl, fun _ _ _ => rfl⟩

theorem cr3_of_current (h : KInv k) (ht : k.currentTask = some t) : k.cr3 = root k t ∧ Live k t := by
  obtain ⟨t', ht', hl, hvirt⟩ := h.current
  obtain rfl : t = t' := Option.some.inj (ht.symm.trans ht')
  exact ⟨by rw [Kernel.cr3, hvirt]; rfl, hl⟩

section

variable (h : KInv k) (hst : StacksInv k) (ht : k.currentTask = some t)

include h hst ht

/-- One byte. -/
theorem store_writes (b : BitVec 8) (hv : Listed k t v) : ∃ k', step k (.store v b) = some k' ∧
    Acts t k (.store v b) ∧ Writes t {v} k k' ∧ loadByte k' v = some b := by
  obtain ⟨hcr3, hl⟩ := cr3_of_current h ht
  obtain ⟨hcan, p, hp, hvp⟩ := hv
  obtain ⟨f, hf, hfc⟩ := h.data t hl p hp
  have hfv : translate k k.cr3 v = some f := by
    rw [hcr3, translate_page hvp]
    exact hf
  have hd : Data (liveRoots k) k k.cr3 v := ⟨f, hfv, hfc⟩
  obtain ⟨k', hstore, -⟩ := storeByte_isSome (k := k) b hcan hfv
  have hstep : step k (.store v b) = some k' := by
    rw [step, ht, Option.bind_some]
    exact hstore
  have hm : Meets k (.store v b) := ⟨⟨t, ht, p, hp, hvp⟩, trivial⟩
  obtain ⟨f', hf', -, hout, heq⟩ := storeByte_some hstore
  obtain rfl : f = f' := Option.some.inj (hfv.symm.trans hf')
  have hcr3' : k'.cr3 = k.cr3 := by
    rw [heq]
    rfl
  have hroots : liveRoots k' = liveRoots k := by
    rw [heq]
    rfl
  have hcore : core (liveRoots k') k' ⊆ core (liveRoots k) k := by
    rw [hroots]
    exact (evolves_store h.sound hd hstore).core
  have hwalk : ∀ y, translate k' k'.cr3 y = translate k k.cr3 y := by
    intro y
    rw [hcr3']
    exact translate_congr (store_walks hd hstore _ (hcr3 ▸ mem_liveRoots hl) y)
  -- the one frame that changes
  have hmem : k'.mem f = RadixForest.put k.mem f (wordIndex v) (setByte (k.mem f (wordIndex v)) (v.toNat % 8) b) f := by
    rw [storeByte, access, if_pos hcan, hfv, Option.map_some, Option.some.injEq] at hstore
    rw [← hstore]
  have hload : ∀ y g, Canonical y → translate k k.cr3 y = some g → loadByte k' y = some (byteIn (k'.mem g) y) := by
    intro y g hy hg
    rw [loadByte, access, if_pos hy, hwalk, hg, Option.map_some]
  refine ⟨k', hstep, ⟨hm, ht⟩, ⟨(kinv_step h hm hstep).1, step_stacks h hst hm hstep, by rw [heq], by rw [heq]; exact ht,
    by rw [heq], hcore, ?_⟩, ?_⟩
  · rintro y ⟨hy, q, hq, hyq⟩ hyv
    obtain ⟨g, hg, -⟩ := h.data t hl q hq
    have hgy : translate k k.cr3 y = some g := by
      rw [hcr3, translate_page hyq]
      exact hg
    rw [hload y g hy hgy, loadByte, access, if_pos hy, hgy, Option.map_some]
    congr 1
    by_cases hgf : g = f
    · -- another byte of the same page
      subst hgf
      have hpage : vpn q = vpn p := (hst.frames t hl).distinct q hq p hp (hg.trans hf.symm)
      rw [hmem, byteIn_put, if_neg]
      rintro ⟨hw, hb⟩
      exact hyv (eq_of_place hy hcan (hyq.trans (hpage.trans hvp.symm)) hw hb)
    · rw [hout g hgf]
  · rw [hload v f hcan hfv, hmem, byteIn_put, if_pos ⟨rfl, rfl⟩]

end

theorem toNat_add_one (h : v.toNat + 1 < 2 ^ 64) : (v + 1).toNat = v.toNat + 1 := by
  rw [BitVec.toNat_add, show (1 : Word).toNat = 1 from rfl, Nat.mod_eq_of_lt h]

theorem stores_writes (bs : List (BitVec 8)) : ∀ {k : Kernel} {v : Word}, KInv k → StacksInv k →
    k.currentTask = some t → v.toNat + bs.length < 2 ^ 64 → (∀ x ∈ span v bs.length, Listed k t x) →
    ∃ k', Transition.run step k (stores v bs) = some k' ∧ Transition.Along step (Acts t) k (stores v bs) ∧
      Writes t (span v bs.length) k k' ∧ loadBytes k' v bs.length = some bs := by
  induction bs with
  | nil =>
    intro k v h hst ht _ _
    refine ⟨k, rfl, trivial, (writes_refl h hst ht).trans (writes_refl h hst ht) ?_, rfl⟩
    simp
  | cons b bs ih =>
    intro k v h hst ht hlt hlisted
    rw [List.length_cons] at hlt hlisted
    have hnext : (v + 1).toNat = v.toNat + 1 := toNat_add_one (by omega)
    have hv : v ∈ span v (bs.length + 1) := ⟨le_rfl, by omega⟩
    have hsub : span (v + 1) bs.length ⊆ span v (bs.length + 1) := by
      rintro x ⟨hx, hx'⟩
      exact ⟨by omega, by omega⟩
    obtain ⟨k₁, hstep, hm, hw, hb⟩ := store_writes h hst ht b (hlisted v hv)
    have hlisted₁ : ∀ x ∈ span (v + 1) bs.length, Listed k₁ t x := by
      intro x hx
      rw [Listed, hw.tasks]
      exact hlisted x (hsub hx)
    obtain ⟨k', hrun, halong, hw', hbs⟩ := ih hw.inv hw.own hw.currentTask (by omega) hlisted₁
    refine ⟨k', (Transition.run_cons_eq_some _).mpr ⟨k₁, hstep, hrun⟩, ⟨hm, fun u hu => ?_⟩, hw.trans hw' ?_, ?_⟩
    · obtain rfl : k₁ = u := Option.some.inj (hstep.symm.trans hu)
      exact halong
    · rintro x (rfl | hx)
      · exact hv
      · exact hsub hx
    · have hkept : loadByte k' v = some b := by
        rw [hw'.rest v (by rw [Listed, hw.tasks]; exact hlisted v hv) (fun hx => ?_), hb]
        have := hx.1
        omega
      rw [List.length_cons, loadBytes, hkept, hbs]
      rfl

theorem loadBytes_congr (n : Nat) : ∀ {v : Word}, v.toNat + n < 2 ^ 64 →
    (∀ x ∈ span v n, loadByte k' x = loadByte k x) → loadBytes k' v n = loadBytes k v n := by
  induction n with
  | zero => exact fun _ _ => rfl
  | succ n ih =>
    intro v hlt hsame
    have hnext : (v + 1).toNat = v.toNat + 1 := toNat_add_one (by omega)
    have hrest : loadBytes k' (v + 1) n = loadBytes k (v + 1) n := by
      refine ih (by omega) fun x hx => hsame x ?_
      obtain ⟨hx, hx'⟩ := hx
      exact ⟨by omega, by omega⟩
    rw [loadBytes, loadBytes, hsame v ⟨le_rfl, by omega⟩, hrest]

theorem loadWord_congr (hlt : v.toNat + 8 < 2 ^ 64) (hsame : ∀ x ∈ span v 8, loadByte k' x = loadByte k x) :
    loadWord k' v = loadWord k v := by
  rw [loadWord, loadWord, loadBytes_congr 8 hlt hsame]

theorem length_bytesOf (w : Word) : (bytesOf w).length = 8 := rfl

/-- A word is written. -/
theorem word_writes (w : Word) (h : KInv k) (hst : StacksInv k) (ht : k.currentTask = some t)
    (hlt : v.toNat + 8 < 2 ^ 64) (hlisted : ∀ x ∈ span v 8, Listed k t x) :
    ∃ k', Transition.run step k (stores v (bytesOf w)) = some k' ∧
      Transition.Along step (Acts t) k (stores v (bytesOf w)) ∧ Writes t (span v 8) k k' ∧ loadWord k' v = some w := by
  obtain ⟨k', hrun, halong, hw, hbs⟩ := stores_writes (bytesOf w) h hst ht hlt hlisted
  refine ⟨k', hrun, halong, hw, ?_⟩
  rw [length_bytesOf] at hbs
  rw [loadWord, hbs, Option.map_some, wordOf_bytesOf]

/-! ## The stack -/

def pushOps : Word → List Word → List Op
  | _, [] => []
  | rsp, w :: ws => stores (rsp - 8) (bytesOf w) ++ pushOps (rsp - 8) ws

def popAll (k : Kernel) : Nat → Word → Option (List Word × Word)
  | 0, rsp => some ([], rsp)
  | n + 1, rsp => do
    let w ← loadWord k rsp
    let (ws, rsp) ← popAll k n (rsp + 8)
    some (w :: ws, rsp)

def Holds (k : Kernel) : Word → List Word → Prop
  | _, [] => True
  | v, w :: ws => loadWord k v = some w ∧ Holds k (v + 8) ws

theorem popAll_of_holds (ws : List Word) : ∀ {v : Word}, Holds k v ws →
    popAll k ws.length v = some (ws, v + BitVec.ofNat 64 (8 * ws.length)) := by
  induction ws with
  | nil => simp [popAll]
  | cons w ws ih =>
    rintro v ⟨hw, hws⟩
    have hend : v + 8 + BitVec.ofNat 64 (8 * ws.length) = v + BitVec.ofNat 64 (8 * (ws.length + 1)) := by
      rw [Nat.mul_succ, Nat.add_comm (8 * ws.length), BitVec.ofNat_add, ← BitVec.add_assoc]
      rfl
    rw [List.length_cons, popAll, hw, Option.bind_eq_bind, Option.bind_some, ih hws, ← hend]
    rfl

theorem holds_snoc (ws : List Word) : ∀ {v : Word}, Holds k v ws →
    loadWord k (v + BitVec.ofNat 64 (8 * ws.length)) = some w → Holds k v (ws ++ [w]) := by
  induction ws with
  | nil =>
    intro v _ hw
    simp only [List.length_nil, Nat.mul_zero, BitVec.add_zero] at hw
    exact ⟨hw, trivial⟩
  | cons w' ws ih =>
    rintro v ⟨hw', hws⟩ hw
    refine ⟨hw', ih hws ?_⟩
    rw [List.length_cons, Nat.mul_succ, Nat.add_comm, BitVec.ofNat_add, ← BitVec.add_assoc] at hw
    exact hw

theorem holds_congr (ws : List Word) : ∀ {v : Word}, v.toNat + 8 * ws.length < 2 ^ 64 →
    (∀ x ∈ span v (8 * ws.length), loadByte k' x = loadByte k x) → Holds k v ws → Holds k' v ws := by
  induction ws with
  | nil => exact fun _ _ _ => trivial
  | cons w ws ih =>
    rintro v hlt hsame ⟨hw, hws⟩
    rw [List.length_cons] at hlt hsame
    have hnext : (v + 8).toNat = v.toNat + 8 := by
      rw [BitVec.toNat_add, show (8 : Word).toNat = 8 from rfl]
      omega
    constructor
    · rw [loadWord_congr (k := k) (by omega) fun x hx => hsame x ⟨hx.1, ?_⟩]
      · exact hw
      · have := hx.2
        omega
    · refine ih (by omega) (fun x hx => hsame x ⟨?_, ?_⟩) hws
      · have := hx.1
        omega
      · have := hx.2
        omega

theorem toNat_below {rsp : Word} {n : Nat} (hn : n ≤ rsp.toNat) : (rsp - BitVec.ofNat 64 n).toNat = rsp.toNat - n := by
  have hlt := rsp.isLt
  rw [BitVec.toNat_sub, BitVec.toNat_ofNat]
  omega

theorem below_succ (rsp : Word) (n : Nat) :
    rsp - 8 - BitVec.ofNat 64 (8 * n) = rsp - BitVec.ofNat 64 (8 * (n + 1)) := by
  rw [Nat.mul_succ, Nat.add_comm, BitVec.ofNat_add, ← BitVec.sub_sub]
  rfl

/-- What was pushed first lies highest. -/
theorem push_writes (ws : List Word) : ∀ {k : Kernel} {rsp : Word}, KInv k → StacksInv k →
    k.currentTask = some t → 8 * ws.length ≤ rsp.toNat →
    (∀ x ∈ span (rsp - BitVec.ofNat 64 (8 * ws.length)) (8 * ws.length), Listed k t x) →
    ∃ k', Transition.run step k (pushOps rsp ws) = some k' ∧ Transition.Along step (Acts t) k (pushOps rsp ws) ∧
      Writes t (span (rsp - BitVec.ofNat 64 (8 * ws.length)) (8 * ws.length)) k k' ∧
      Holds k' (rsp - BitVec.ofNat 64 (8 * ws.length)) ws.reverse := by
  induction ws with
  | nil =>
    intro k rsp h hst ht _ _
    refine ⟨k, rfl, trivial, (writes_refl h hst ht).trans (writes_refl h hst ht) ?_, trivial⟩
    simp
  | cons w ws ih =>
    intro k rsp h hst ht hroom hlisted
    rw [List.length_cons] at hroom hlisted ⊢
    have hrsp := rsp.isLt
    have hbase := toNat_below hroom
    have hnext : (rsp - 8).toNat = rsp.toNat - 8 := toNat_below (n := 8) (by omega)
    have hbase' : (rsp - 8 - BitVec.ofNat 64 (8 * ws.length)).toNat = (rsp - 8).toNat - 8 * ws.length :=
      toNat_below (by omega)
    have hfirst : ∀ x ∈ span (rsp - 8) 8, Listed k t x :=
      fun x hx => hlisted x ⟨by have := hx.1; omega, by have := hx.2; omega⟩
    obtain ⟨k₁, hrun₁, halong₁, hw₁, hword⟩ := word_writes w h hst ht (by omega) hfirst
    have hrest : ∀ x ∈ span (rsp - 8 - BitVec.ofNat 64 (8 * ws.length)) (8 * ws.length), Listed k₁ t x := by
      intro x hx
      rw [Listed, hw₁.tasks]
      exact hlisted x ⟨by have := hx.1; omega, by have := hx.2; omega⟩
    obtain ⟨k', hrun', halong', hw', hholds⟩ := ih hw₁.inv hw₁.own hw₁.currentTask (by omega) hrest
    refine ⟨k', ?_, ?_, ?_, ?_⟩
    · rw [pushOps, Transition.run_append, hrun₁, Option.bind_some]
      exact hrun'
    · refine (Transition.along_append step).mpr ⟨halong₁, fun u hu => ?_⟩
      obtain rfl : k₁ = u := Option.some.inj (hrun₁.symm.trans hu)
      exact halong'
    · refine hw₁.trans hw' ?_
      rintro x (hx | hx)
      · exact ⟨by have := hx.1; omega, by have := hx.2; omega⟩
      · exact ⟨by have := hx.1; omega, by have := hx.2; omega⟩
    · rw [below_succ] at hholds
      rw [List.reverse_cons]
      refine holds_snoc _ hholds ?_
      have hplace : rsp - BitVec.ofNat 64 (8 * (ws.length + 1)) + BitVec.ofNat 64 (8 * ws.reverse.length) = rsp - 8 := by
        rw [← below_succ, List.length_reverse, BitVec.sub_add_cancel]
      rw [hplace, loadWord_congr (k := k₁) (by omega), hword]
      intro x hx
      refine hw'.rest x ?_ (fun hx' => ?_)
      · rw [Listed, hw₁.tasks]
        exact hfirst x hx
      · have := hx.1
        have := hx'.2
        omega

/-! ## A task that waits -/

/-- What the kernel notes about a task that waits is not changed either. -/
theorem step_record {op : Op} (h : KInv k) (hm : Meets k op) (hwait : Waits t k op) (ht : Live k t)
    (hs : step k op = some k') : k'.tasks t = k.tasks t := by
  obtain ⟨u, hu, hl, hvirt⟩ := h.current
  have hcr3 : k.cr3 = root k u := by rw [Kernel.cr3, hvirt]; rfl
  have hr : k.cr3 ∈ liveRoots k := hcr3 ▸ mem_liveRoots hl
  have hother : (∀ s, op ≠ .switch s) → t ≠ u := by
    rintro hne rfl
    obtain ⟨s, rfl⟩ := hwait hu
    exact hne s rfl
  have hs₀ := hs
  rw [step, hu, Option.bind_some] at hs
  cases op with
  | alloc =>
    simp only [Option.map_eq_some_iff] at hs
    obtain ⟨⟨v, k₁⟩, halloc, rfl⟩ := hs
    obtain ⟨g, -, -, -, hfresh, -⟩ := iVirtAlloc_page h.sound hr halloc
    rw [hfresh.same.tasks]
  | brk =>
    simp only [Option.map_eq_some_iff] at hs
    obtain ⟨⟨v, k₁⟩, hbrk, rfl⟩ := hs
    exact (brk_spec h.sound hr hbrk).1.others t (hother fun s => by simp)
  | kmalloc size =>
    simp only [Option.map_eq_some_iff] at hs
    obtain ⟨⟨v, k₁⟩, hmalloc, rfl⟩ := hs
    exact (kmalloc_spec h.sound hr hmalloc).others t (hother fun s => by simp)
  | exec call filename =>
    have hexec := (kexecvpe_front hm.2 k u).symm.trans hs
    exact (kexecvpe_spec h.sound hr hm.1 hexec).1.others t (hother fun s => by simp)
  | fork env regs =>
    obtain ⟨u', c, hu', -, -, -, hf, -⟩ := fork_forked h ((step_fork hm.2 k regs).symm.trans hs₀)
    obtain rfl : u = u' := Option.some.inj (hu.symm.trans hu')
    refine hf.others t (hother fun s => by simp) ?_
    rintro rfl
    exact ht hf.free
  | store v b =>
    obtain ⟨-, -, -, -, heq⟩ := storeByte_some hs
    rw [heq]
  | switch s =>
    simp only [switchTask] at hs
    split at hs
    · rw [Option.some.injEq] at hs
      rw [← hs]
    · cases hs

/-- What the running task sees in a page. -/
theorem loadByte_seen (h : KInv k) (ht : k.currentTask = some t) (hx : vpn x = vpn a) :
    loadByte k x = if Canonical x then (pageSeen k t a).map (byteIn · x) else none := by
  obtain ⟨hcr3, -⟩ := cr3_of_current h ht
  rw [loadByte, access, hcr3, translate_page hx, pageSeen]
  split
  · rw [Option.map_map]
    rfl
  · rfl

/-- A page that nobody else writes to, when the task runs again. -/
theorem waits_run {ops : List Op} (h : KInv k) (ha : ∃ f, Alone k t a f)
    (hm : Transition.Along step (fun k op => Meets k op ∧ Waits t k op) k ops)
    (hr : Transition.run step k ops = some k') :
    KInv k' ∧ k'.tasks t = k.tasks t ∧ pageSeen k' t a = pageSeen k t a := by
  obtain ⟨f, ha⟩ := ha
  have hrun := Transition.run_invariant step (C := fun k op => Meets k op ∧ Waits t k op)
    (P := fun k' => KInv k' ∧ Live k' t ∧ k'.tasks t = k.tasks t) ?_ ⟨h, ha.live, rfl⟩ hm hr
  · exact ⟨hrun.1, hrun.2.2, ha.leftAlone h ops k' hm hr⟩
  · rintro k₁ op k₂ ⟨hm, hwait⟩ ⟨h₁, hl₁, htask₁⟩ hs
    obtain ⟨h₂, hp⟩ := kinv_step h₁ hm hs
    exact ⟨h₂, (hp.tasks t hl₁).1, (step_record h₁ hm hwait hl₁ hs).trans htask₁⟩

/-! ## Switching away and back -/

structure RegsForSyscall where
  r15 : Word
  r14 : Word
  r13 : Word
  r12 : Word
  r11 : Word
  r10 : Word
  r9 : Word
  r8 : Word
  rbp : Word
  rdi : Word
  rsi : Word
  rdx : Word
  rcx : Word
  rbx : Word
  rax : Word

/-- In the order in which `isr_common_stub_syscall` and `switch_task` push them. -/
def RegsForSyscall.pushed (s : RegsForSyscall) : List Word :=
  [s.rax, s.rbx, s.rcx, s.rdx, s.rsi, s.rdi, s.rbp, s.r8, s.r9, s.r10, s.r11, s.r12, s.r13, s.r14, s.r15]

/-- In the order in which they are popped. -/
def RegsForSyscall.ofPopped : List Word → Option RegsForSyscall
  | [r15, r14, r13, r12, r11, r10, r9, r8, rbp, rdi, rsi, rdx, rcx, rbx, rax] =>
    some ⟨r15, r14, r13, r12, r11, r10, r9, r8, rbp, rdi, rsi, rdx, rcx, rbx, rax⟩
  | _ => none

/-- The first half of `switch_task`: the registers go to the stack at `rsp`, and the task
keeps the stack pointer. -/
def switchOut (k : Kernel) (t : Slot) (rsp : Word) (s : RegsForSyscall) : Option Kernel :=
  (Transition.run step k (pushOps rsp s.pushed)).map fun k =>
    modifyTask k t fun task => { task with rsp := rsp - BitVec.ofNat 64 (8 * 15) }

/-- The second half, in the tables of `t`. -/
def switchIn (k : Kernel) (t : Slot) : Option (RegsForSyscall × Word) := do
  let (ws, rsp) ← popAll k 15 (k.tasks t).rsp
  let s ← RegsForSyscall.ofPopped ws
  some (s, rsp)

/-- The `n` bytes below `rsp` lie in the page of the kernel stack of the task. -/
def OnStack (s : TaskMem) (rsp : Word) (n : Nat) : Prop :=
  (stackOf s).toNat + n ≤ rsp.toNat ∧ rsp.toNat ≤ (stackOf s).toNat + 4096

theorem page_of_stack {s : TaskMem} (h : StackArea s) (hx : (stackOf s).toNat ≤ x.toNat)
    (hx' : x.toNat < (stackOf s).toNat + 4096) : Canonical x ∧ vpn x = vpn (stackOf s) := by
  obtain ⟨g, hg, heq⟩ := h.area
  have hstack : stackOf s = window g := by rw [stackOf, heq]
  rw [hstack] at hx hx' ⊢
  have htoNat := window_toNat hg
  have hlt := x.isLt
  refine ⟨Or.inr (by omega), ?_⟩
  rw [vpn, vpn]
  omega

/-- The task notes where its registers are. -/
theorem noteRsp_inv (rsp : Word) (h : KInv k) (hst : StacksInv k) (ht : k.currentTask = some t) :
    KInv (modifyTask k t fun task => { task with rsp := rsp }) ∧
      StacksInv (modifyTask k t fun task => { task with rsp := rsp }) := by
  obtain ⟨hcr3, hl⟩ := cr3_of_current h ht
  have hworks : Works (liveRoots k) t k (modifyTask k t fun task => { task with rsp := rsp }) :=
    works_modify h.sound _ rfl rfl (fun hok => hok) (fun _ ha => ha) (fun _ ha => Or.inl ha)
  have hconf : Confined (liveRoots k) t k (modifyTask k t fun task => { task with rsp := rsp }) :=
    (confined_refl h.sound).modify (hcr3 ▸ mem_liveRoots hl) t _ rfl
  refine ⟨(h.works ht hworks).1, hst.works h ht hworks hconf (Or.inl ?_)⟩
  rw [modifyTask_self]
  exact ⟨rfl, fun _ => rfl⟩

theorem stack_alone (h : KInv k) (hst : StacksInv k) (ht : Live k t) : ∃ f, Alone k t (stackOf (k.tasks t)) f :=
  alone_of_not_shared h ht (hst.areas t ht).page (hst.own t ht)

/-- Words on the stack of a task that waits are there when it runs again. -/
theorem holds_waits {ops : List Op} {ws : List Word} (h : KInv k) (hst : StacksInv k) (ht : k.currentTask = some t)
    (hv : (stackOf (k.tasks t)).toNat ≤ v.toNat)
    (hv' : v.toNat + 8 * ws.length ≤ (stackOf (k.tasks t)).toNat + 4096) (hlt : v.toNat + 8 * ws.length < 2 ^ 64)
    (hm : Transition.Along step (fun k op => Meets k op ∧ Waits t k op) k ops)
    (hr : Transition.run step k ops = some k') (ht' : k'.currentTask = some t) (hholds : Holds k v ws) :
    Holds k' v ws ∧ k'.tasks t = k.tasks t := by
  obtain ⟨-, hl⟩ := cr3_of_current h ht
  obtain ⟨h', htask, hseen⟩ := waits_run h (stack_alone h hst hl) hm hr
  refine ⟨holds_congr ws hlt (fun x hx => ?_) hholds, htask⟩
  obtain ⟨hx, hx'⟩ := hx
  obtain ⟨-, hpage⟩ := page_of_stack (hst.areas t hl) (x := x) (by omega) (by omega)
  rw [loadByte_seen h' ht' hpage, loadByte_seen h ht hpage, hseen]

theorem switchOut_spec {rsp : Word} (h : KInv k) (hst : StacksInv k) (ht : k.currentTask = some t)
    (hrsp : OnStack (k.tasks t) rsp (8 * 15)) (s : RegsForSyscall) :
    ∃ k₁, switchOut k t rsp s = some k₁ ∧ KInv k₁ ∧ StacksInv k₁ ∧ k₁.currentTask = some t ∧
      k₁.tasks = Function.update k.tasks t { k.tasks t with rsp := rsp - BitVec.ofNat 64 (8 * 15) } ∧
        Holds k₁ (rsp - BitVec.ofNat 64 (8 * 15)) s.pushed.reverse := by
  obtain ⟨-, hl⟩ := cr3_of_current h ht
  obtain ⟨hlow, hhigh⟩ := hrsp
  have hlen : s.pushed.length = 15 := rfl
  have hrsp := rsp.isLt
  have hbase : (rsp - BitVec.ofNat 64 (8 * 15)).toNat = rsp.toNat - 8 * 15 := toNat_below (by omega)
  have harea := hst.areas t hl
  have hlisted : ∀ x ∈ span (rsp - BitVec.ofNat 64 (8 * s.pushed.length)) (8 * s.pushed.length), Listed k t x := by
    rintro x ⟨hx, hx'⟩
    rw [hlen] at hx hx'
    obtain ⟨hcan, hpage⟩ := page_of_stack harea (x := x) (by omega) (by omega)
    exact ⟨hcan, _, harea.page, hpage⟩
  obtain ⟨k', hrun, -, hw, hholds⟩ := push_writes s.pushed h hst ht (by omega) hlisted
  obtain ⟨hk₁, hst₁⟩ := noteRsp_inv (rsp - BitVec.ofNat 64 (8 * 15)) hw.inv hw.own hw.currentTask
  refine ⟨_, by rw [switchOut, hrun, Option.map_some], hk₁, hst₁, hw.currentTask, ?_, ?_⟩
  · rw [modifyTask, hw.tasks]
  · refine holds_congr (k := k') _ ?_ (fun x _ => rfl) hholds
    rw [List.length_reverse, hlen]
    omega

/-- A switch to a live task. -/
theorem step_switch (h : KInv k) (ht : Live k t) : ∃ k', step k (.switch t) = some k' ∧
    k'.currentTask = some t ∧ k'.tasks = k.tasks := by
  obtain ⟨u, hu, -⟩ := h.current
  refine ⟨{ k with currentTask := some t, curPml4eVirt := (k.tasks t).pml4e }, ?_, rfl, rfl⟩
  rw [step, hu, Option.bind_some]
  simp only [switchTask]
  rw [if_pos ht]

end ContextSwitch
