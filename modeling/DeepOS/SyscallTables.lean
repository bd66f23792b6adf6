import DeepOS.FileTable
import DeepOS.Directory

/-!
# Index bounds of the system calls

`syscall_handler` and the handlers that index the descriptor arrays. The arrays are
functions on all integers, as an index outside them reaches whatever lies there;
every access is noted with its array and its index.
-/
namespace SyscallTables

open TaskTable PhyMem CString Strings Tarfs
open FileTable (Files FdRecord ReadResult readLoop copied)
open Directory (Dir Dirs getFileName)

inductive Table where
  | syscalls | openFiles | fdAllocArray | fdArr | openDirectories | dirDesc | dirIntArr
  deriving DecidableEq, Repr

def NUM_SYSCALLS : Nat := 25

def Table.size : Table → Nat
  | .syscalls => NUM_SYSCALLS
  | _ => 100

abbrev Access := Table × Int

def InBounds (e : Access) : Prop := 0 ≤ e.2 ∧ e.2 < e.1.size

structure Arrays where
  openFiles : Int → Bool
  fdAllocArray : Int → Bool
  fdArr : Int → FdRecord
  openDirectories : Int → Bool
  dirDesc : Int → Bool
  dirIntArr : Int → Dir

/-! ## Files -/

/-- The search over the first records: where it stops, and what it reads. -/
def searchRecord (s : Arrays) (fd : Int) : List Nat → Nat × List Access
  | [] => (10, [])
  | i :: is =>
    if ((s.fdArr i).fd.val : Int) = fd then (i, [(.fdArr, i)])
    else ((searchRecord s fd is).1, (.fdArr, (i : Int)) :: (searchRecord s fd is).2)

def sysRead (mem : Nat → Byte) (s : Arrays) (fd nBytes : Int) : List Access × ReadResult × Arrays :=
  if fd = -1 then ([], ⟨0, []⟩, s)
  else if !s.openFiles fd then ([(.openFiles, fd)], ⟨0, []⟩, s)
  else
    let r := searchRecord s fd (List.range 10)
    if r.1 < 10 ∧ (s.fdArr r.1).eof then ((.openFiles, fd) :: r.2, ⟨0, []⟩, s)
    else
      let out := readLoop mem nBytes.toNat (s.fdArr r.1)
      ((.openFiles, fd) :: (r.2 ++ [(.fdArr, (r.1 : Int))]), copied out.1,
        { s with fdArr := Function.update s.fdArr r.1 out.2 })

def sysClose (s : Arrays) (fd : Int) : List Access × Arrays :=
  ([(.openFiles, fd), (.openFiles, fd), (.fdAllocArray, fd)],
    { s with
      openFiles := Function.update s.openFiles fd false
      fdAllocArray := Function.update s.fdAllocArray fd false })

/-- The second part is what is printed. -/
def sysWrite (s : Arrays) (fd : Int) (buff : List Byte) : List Access × List Byte :=
  ([(.openFiles, fd), (.openFiles, fd)], if s.openFiles fd then buff else [])

def firstFree (used : Int → Bool) : List Nat → List Nat × Option Nat
  | [] => ([], none)
  | i :: is => if used i then (i :: (firstFree used is).1, (firstFree used is).2) else ([i], some i)

def openFd (a : List Byte) (base : Nat) (s : Arrays) (start i : Nat) : Arrays :=
  { s with
    fdAllocArray := Function.update s.fdAllocArray i true
    fdArr := Function.update s.fdArr i
      ⟨Fin.ofNat 100 i, base + start, base + start, headerSize a (start - 512), false⟩
    openFiles := Function.update s.openFiles i true }

def sysOpen (a : List Byte) (base : Nat) (s : Arrays) (fname : List Byte) :
    List Access × Option (Option Nat × Arrays) :=
  match sysOpenWalk a fname with
  | none => ([], none)
  | some w =>
    match w.data with
    | none => ([], some (none, s))
    | some start =>
      let r := firstFree s.fdAllocArray (List.range' 3 97)
      let scan := r.1.map fun i : Nat => (Table.fdAllocArray, (i : Int))
      match r.2 with
      | none => (scan, some (none, s))
      | some i => (scan ++ [(.fdAllocArray, (i : Int)), (.fdArr, (i : Int)), (.openFiles, (i : Int))],
          some (some i, openFd a base s start i))

/-! ## Directories -/

/-- `fd` is what the caller's record holds; its other fields are in `dir`. -/
def sysReaddir (a : List Byte) (s : Arrays) (fd : Int) (dir : Dir) :
    List Access × Option (List Byte × Dir × Arrays) :=
  if !s.openDirectories fd then ([(.openDirectories, fd)], some ([], dir, s))
  else if (s.dirIntArr fd).eofDirectory then
    ([(.openDirectories, fd), (.dirIntArr, fd)], some ([], dir, s))
  else
    ([(.openDirectories, fd), (.dirIntArr, fd), (.dirIntArr, fd)],
      (getFileName a dir (s.dirIntArr fd)).map fun r =>
        (r.1, r.2.1, { s with dirIntArr := Function.update s.dirIntArr fd r.2.2 }))

def sysClosedir (s : Arrays) (fd : Int) : List Access × Arrays :=
  ([(.openDirectories, fd), (.dirDesc, fd)], { s with dirDesc := Function.update s.dirDesc fd false })

def openDesc (s : Arrays) (dirname : List Byte) (start i : Nat) : Arrays :=
  { s with
    dirDesc := Function.update s.dirDesc i true
    dirIntArr := Function.update s.dirIntArr i ⟨Fin.ofNat 100 i, start, start, false, dirname, []⟩
    openDirectories := Function.update s.openDirectories i true }

/-- The loop for a directory descriptor, for a directory whose contents stand at `start`. -/
def takeDesc (s : Arrays) (dirname : List Byte) (start : Nat) : List Access × Option Nat × Arrays :=
  let r := firstFree s.dirDesc (List.range' 3 97)
  let scan := r.1.map fun i : Nat => (Table.dirDesc, (i : Int))
  match r.2 with
  | none => (scan, none, s)
  | some i => (scan ++ [(.dirDesc, (i : Int)), (.dirIntArr, (i : Int)), (.openDirectories, (i : Int))],
      some i, openDesc s dirname start i)

/-- The search of the archive, also for the root when no descriptor is left for it. -/
def sysOpendirSearch (a : List Byte) (s : Arrays) (dirname : List Byte) :
    List Access × Option (Option Nat × Arrays) :=
  match sysOpendirWalk a dirname with
  | none => ([], none)
  | some w =>
    match w.data with
    | none => ([], some (none, s))
    | some start => ((takeDesc s dirname start).1, some (takeDesc s dirname start).2)

def sysOpendir (a : List Byte) (s : Arrays) (dirname : List Byte) :
    List Access × Option (Option Nat × Arrays) :=
  if strcmp dirname [47] = 0 then
    match (takeDesc s dirname 0).2.1 with
    | some _ => ((takeDesc s dirname 0).1, some (takeDesc s dirname 0).2)
    | none => ((takeDesc s dirname 0).1 ++ (sysOpendirSearch a s dirname).1,
        (sysOpendirSearch a s dirname).2)
  else sysOpendirSearch a s dirname

/-! ## The dispatch -/

inductive Handler where
  | print | exitSyscall | sscanfSystemCall | enterToMemory | sysFork | sysExecvpe | sysSleep
  | sysWaitpid | sysSbrk | sysGetpid | sysOpen | sysRead | sysClose | sysOpendir | sysReaddir
  | sysClosedir | sysUlimit | sysKmalloc | sysLs | sysWrite | sysNoop | sysPs | sysCd | sysPwd
  deriving DecidableEq, Repr

def syscalls : List Handler :=
  [.print, .exitSyscall, .sscanfSystemCall, .enterToMemory, .sysFork, .sysExecvpe, .sysSleep,
    .sysWaitpid, .sysSbrk, .sysGetpid, .sysOpen, .sysRead, .sysClose, .sysOpendir, .sysReaddir,
    .sysClosedir, .sysUlimit, .sysKmalloc, .sysLs, .sysWrite, .sysNoop, .sysNoop, .sysPs, .sysCd,
    .sysPwd]

structure Regs where
  rax : Word
  rbx : Word
  rcx : Word
  rdx : Word

/-- What the pointers of the caller lead to. -/
structure User where
  string : Word → List Byte
  dir : Word → Int × Dir

def toInt (r : Word) : Int := (r.setWidth 32).toInt

/-- The archive, where it stands, and what the kernel reads. -/
structure Machine where
  archive : List Byte
  base : Nat
  mem : Nat → Byte

/-- Of the handlers that are not listed only `sys_fork` touches these arrays: it sets the
entries 0 to 2 of `open_files` in the new task, at fixed indices. -/
def call (m : Machine) (u : User) (s : Arrays) (regs : Regs) : Handler → List Access × Option Arrays
  | .sysOpen =>
    ((sysOpen m.archive m.base s (u.string regs.rax)).1,
      (sysOpen m.archive m.base s (u.string regs.rax)).2.map Prod.snd)
  | .sysRead =>
    ((sysRead m.mem s (toInt regs.rcx) (toInt regs.rdx)).1,
      some (sysRead m.mem s (toInt regs.rcx) (toInt regs.rdx)).2.2)
  | .sysClose => ((sysClose s (toInt regs.rax)).1, some (sysClose s (toInt regs.rax)).2)
  | .sysOpendir =>
    ((sysOpendir m.archive s (u.string regs.rax)).1,
      (sysOpendir m.archive s (u.string regs.rax)).2.map Prod.snd)
  | .sysReaddir =>
    ((sysReaddir m.archive s (u.dir regs.rax).1 (u.dir regs.rax).2).1,
      (sysReaddir m.archive s (u.dir regs.rax).1 (u.dir regs.rax).2).2.map fun r => r.2.2)
  | .sysClosedir => ((sysClosedir s (toInt regs.rax)).1, some (sysClosedir s (toInt regs.rax)).2)
  | .sysWrite => ((sysWrite s (toInt regs.rcx) (u.string regs.rdx)).1, some s)
  | _ => ([], some s)

/-- What lies behind the table is called too; nothing is known of such a call. -/
def syscallHandler (m : Machine) (u : User) (s : Arrays) (regs : Regs) : List Access × Option Arrays :=
  if regs.rbx > BitVec.ofNat 64 NUM_SYSCALLS then ([], some s)
  else
    match syscalls[regs.rbx.toNat]? with
    | some h => ((.syscalls, (regs.rbx.toNat : Int)) :: (call m u s regs h).1, (call m u s regs h).2)
    | none => ([(.syscalls, (regs.rbx.toNat : Int))], none)

/-! ## Bounds -/

def Index (fd : Int) : Prop := 0 ≤ fd ∧ fd < 100

instance (fd : Int) : Decidable (Index fd) := inferInstanceAs (Decidable (_ ∧ _))

instance (e : Access) : Decidable (InBounds e) := inferInstanceAs (Decidable (_ ∧ _))

/-- The call number is not 25, and the descriptor is one of the arrays' indices; only
`sys_read` refuses `-1`. -/
def Valid (u : User) (regs : Regs) : Prop :=
  regs.rbx ≠ 25 ∧ match syscalls[regs.rbx.toNat]? with
  | some .sysRead => toInt regs.rcx = -1 ∨ Index (toInt regs.rcx)
  | some .sysClose => Index (toInt regs.rax)
  | some .sysReaddir => Index (u.dir regs.rax).1
  | some .sysClosedir => Index (toInt regs.rax)
  | some .sysWrite => Index (toInt regs.rcx)
  | _ => True

variable {s : Arrays} {fd : Int}

theorem index_iff {t : Table} (ht : t ≠ .syscalls) : InBounds (t, fd) ↔ Index fd := by
  cases t <;> first | exact absurd rfl ht | exact Iff.rfl

theorem searchRecord_spec (s : Arrays) (fd : Int) (is : List Nat) (his : ∀ i ∈ is, i ≤ 10) :
    (searchRecord s fd is).1 ≤ 10 ∧ ∀ e ∈ (searchRecord s fd is).2, InBounds e := by
  induction is with
  | nil => exact ⟨le_rfl, by simp [searchRecord]⟩
  | cons i is ih =>
    have hi := his i List.mem_cons_self
    have hin : InBounds (.fdArr, (i : Int)) := (index_iff (by decide)).mpr ⟨by omega, by omega⟩
    obtain ⟨hle, hrest⟩ := ih fun j hj => his j (List.mem_cons_of_mem i hj)
    rw [searchRecord]
    split
    · refine ⟨hi, fun e he => ?_⟩
      rw [List.mem_singleton.mp he]
      exact hin
    · refine ⟨hle, fun e he => ?_⟩
      rcases List.mem_cons.mp he with rfl | he
      · exact hin
      · exact hrest e he

theorem sysRead_inBounds (mem : Nat → Byte) (s : Arrays) (fd nBytes : Int) :
    (∀ e ∈ (sysRead mem s fd nBytes).1, InBounds e) ↔ fd = -1 ∨ Index fd := by
  have hopen : InBounds (.openFiles, fd) ↔ Index fd := index_iff (by decide)
  by_cases hneg : fd = -1
  · simp [sysRead, hneg]
  · rw [or_iff_right hneg, ← hopen, sysRead, if_neg hneg]
    obtain ⟨hle, hsearch⟩ := searchRecord_spec s fd (List.range 10)
      fun i hi => (List.mem_range.mp hi).le
    have hlast : InBounds (.fdArr, ((searchRecord s fd (List.range 10)).1 : Int)) :=
      (index_iff (by decide)).mpr ⟨by omega, by omega⟩
    split
    · simp
    · constructor
      · intro h
        refine h _ ?_
        dsimp only
        split <;> exact List.mem_cons_self
      · intro h e he
        dsimp only at he
        split at he
        · rcases List.mem_cons.mp he with rfl | he
          · exact h
          · exact hsearch e he
        · rcases List.mem_cons.mp he with rfl | he
          · exact h
          · rcases List.mem_append.mp he with he | he
            · exact hsearch e he
            · rw [List.mem_singleton.mp he]
              exact hlast

/-- A handler that reads first where its descriptor leads. -/
theorem first_inBounds {t : Table} {es : List Access} (ht : t ≠ .syscalls)
    (hes : ∀ e ∈ es, e.1 ≠ .syscalls ∧ e.2 = fd) :
    (∀ e ∈ (t, fd) :: es, InBounds e) ↔ Index fd := by
  constructor
  · exact fun h => (index_iff ht).mp (h _ List.mem_cons_self)
  · intro h e he
    rcases List.mem_cons.mp he with rfl | he
    · exact (index_iff ht).mpr h
    · obtain ⟨hne, heq⟩ := hes e he
      rw [← Prod.eta e, heq]
      exact (index_iff hne).mpr h

theorem sysClose_inBounds (s : Arrays) (fd : Int) :
    (∀ e ∈ (sysClose s fd).1, InBounds e) ↔ Index fd :=
  first_inBounds (by decide) (by simp)

theorem sysWrite_inBounds (s : Arrays) (fd : Int) (buff : List Byte) :
    (∀ e ∈ (sysWrite s fd buff).1, InBounds e) ↔ Index fd :=
  first_inBounds (by decide) (by simp)

theorem sysClosedir_inBounds (s : Arrays) (fd : Int) :
    (∀ e ∈ (sysClosedir s fd).1, InBounds e) ↔ Index fd :=
  first_inBounds (by decide) (by simp)

theorem sysReaddir_inBounds (a : List Byte) (s : Arrays) (fd : Int) (dir : Dir) :
    (∀ e ∈ (sysReaddir a s fd dir).1, InBounds e) ↔ Index fd := by
  rw [sysReaddir]
  split
  · exact first_inBounds (by decide) (by simp)
  · split <;> exact first_inBounds (by decide) (by simp)

theorem firstFree_spec (used : Int → Bool) {is : List Nat} (his : ∀ i ∈ is, i < 100) :
    (∀ i ∈ (firstFree used is).1, i < 100) ∧ ∀ i, (firstFree used is).2 = some i → i < 100 := by
  induction is with
  | nil => simp [firstFree]
  | cons i is ih =>
    have hi := his i List.mem_cons_self
    obtain ⟨hscan, hfound⟩ := ih fun j hj => his j (List.mem_cons_of_mem i hj)
    rw [firstFree]
    split
    · refine ⟨fun j hj => ?_, hfound⟩
      rcases List.mem_cons.mp hj with rfl | hj
      · exact hi
      · exact hscan j hj
    · refine ⟨fun j hj => ?_, fun j hj => ?_⟩
      · rw [List.mem_singleton.mp hj]
        exact hi
      · rw [← Option.some.inj hj]
        exact hi

theorem scan_inBounds {t : Table} (ht : t ≠ .syscalls) {is : List Nat} (his : ∀ i ∈ is, i < 100) :
    ∀ e ∈ is.map (fun i : Nat => (t, (i : Int))), InBounds e := by
  intro e he
  obtain ⟨i, hi, rfl⟩ := List.mem_map.mp he
  have hlt := his i hi
  exact (index_iff ht).mpr ⟨by omega, by omega⟩

theorem mem_descriptors : ∀ i ∈ List.range' 3 97, i < 100 := by
  intro i hi
  rw [List.mem_range'_1] at hi
  omega

/-- The descriptors that are handed out lie in the arrays. -/
theorem sysOpen_inBounds (a : List Byte) (base : Nat) (s : Arrays) (fname : List Byte) :
    ∀ e ∈ (sysOpen a base s fname).1, InBounds e := by
  obtain ⟨hscan, hfound⟩ := firstFree_spec s.fdAllocArray mem_descriptors
  have hin := scan_inBounds (t := .fdAllocArray) (by decide) hscan
  rw [sysOpen]
  split
  · simp
  · split
    · simp
    · dsimp only
      split
      · exact hin
      · rename_i i hi
        have hlt := hfound i hi
        have hidx : Index (i : Int) := ⟨by omega, by omega⟩
        intro e he
        rcases List.mem_append.mp he with he | he
        · exact hin e he
        · exact (first_inBounds (t := .fdAllocArray) (by decide) (by simp)).mpr hidx e he

theorem takeDesc_inBounds (s : Arrays) (dirname : List Byte) (start : Nat) :
    ∀ e ∈ (takeDesc s dirname start).1, InBounds e := by
  obtain ⟨hscan, hfound⟩ := firstFree_spec s.dirDesc mem_descriptors
  have hin := scan_inBounds (t := .dirDesc) (by decide) hscan
  rw [takeDesc]
  split
  · exact hin
  · rename_i i hi
    have hlt := hfound i hi
    have hidx : Index (i : Int) := ⟨by omega, by omega⟩
    intro e he
    rcases List.mem_append.mp he with he | he
    · exact hin e he
    · exact (first_inBounds (t := .dirDesc) (by decide) (by simp)).mpr hidx e he

theorem sysOpendirSearch_inBounds (a : List Byte) (s : Arrays) (dirname : List Byte) :
    ∀ e ∈ (sysOpendirSearch a s dirname).1, InBounds e := by
  rw [sysOpendirSearch]
  split
  · simp
  · split
    · simp
    · exact takeDesc_inBounds s dirname _

theorem sysOpendir_inBounds (a : List Byte) (s : Arrays) (dirname : List Byte) :
    ∀ e ∈ (sysOpendir a s dirname).1, InBounds e := by
  rw [sysOpendir]
  split
  · split
    · exact takeDesc_inBounds s dirname 0
    · intro e he
      rcases List.mem_append.mp he with he | he
      · exact takeDesc_inBounds s dirname 0 e he
      · exact sysOpendirSearch_inBounds a s dirname e he
  · exact sysOpendirSearch_inBounds a s dirname

theorem call_inBounds (m : Machine) (u : User) (s : Arrays) {regs : Regs} {h : Handler}
    (hh : syscalls[regs.rbx.toNat]? = some h) : (∀ e ∈ (call m u s regs h).1, InBounds e) ↔
      match syscalls[regs.rbx.toNat]? with
      | some .sysRead => toInt regs.rcx = -1 ∨ Index (toInt regs.rcx)
      | some .sysClose => Index (toInt regs.rax)
      | some .sysReaddir => Index (u.dir regs.rax).1
      | some .sysClosedir => Index (toInt regs.rax)
      | some .sysWrite => Index (toInt regs.rcx)
      | _ => True := by
  rw [hh]
  cases h with
  | sysRead => exact sysRead_inBounds m.mem s _ _
  | sysClose => exact sysClose_inBounds s _
  | sysReaddir => exact sysReaddir_inBounds m.archive s _ _
  | sysClosedir => exact sysClosedir_inBounds s _
  | sysWrite => exact sysWrite_inBounds s _ (u.string regs.rdx)
  | sysOpen => exact iff_true_intro (sysOpen_inBounds m.archive m.base s _)
  | sysOpendir => exact iff_true_intro (sysOpendir_inBounds m.archive s _)
  | _ => simp [call]

/-- For all register contents and all states of the arrays, the accesses of a system
call are in bounds exactly when its number is not 25 and its descriptor is valid. -/
theorem syscall_in_bounds_iff (m : Machine) (u : User) (s : Arrays) (regs : Regs) :
    (∀ e ∈ (syscallHandler m u s regs).1, InBounds e) ↔ Valid u regs := by
  have hlen : syscalls.length = 25 := rfl
  rw [syscallHandler, Valid]
  split
  · rename_i hgt
    have hgt' : 25 < regs.rbx.toNat := hgt
    have hne : regs.rbx ≠ 25 := by rintro h; rw [h] at hgt'; exact absurd hgt' (by decide)
    rw [List.getElem?_eq_none (by omega)]
    exact iff_of_true (by simp) ⟨hne, trivial⟩
  · rename_i hle
    have hle' : regs.rbx.toNat ≤ 25 := not_lt.mp hle
    cases hh : syscalls[regs.rbx.toNat]? with
    | none =>
      have h25 : regs.rbx.toNat = 25 := by
        rw [List.getElem?_eq_none_iff, hlen] at hh
        omega
      have hnot : ¬ InBounds (.syscalls, (regs.rbx.toNat : Int)) := by
        rw [h25]
        exact fun h => absurd h.2 (by decide)
      have heq : regs.rbx = 25 := BitVec.eq_of_toNat_eq h25
      constructor
      · exact fun h => absurd (h _ List.mem_cons_self) hnot
      · exact fun h => absurd heq h.1
    | some h =>
      have hlt : regs.rbx.toNat < 25 := by
        obtain ⟨hlt, -⟩ := List.getElem?_eq_some_iff.mp hh
        omega
      have hne : regs.rbx ≠ 25 := by rintro h; rw [h] at hlt; exact absurd hlt (by decide)
      have hin : InBounds (.syscalls, (regs.rbx.toNat : Int)) :=
        ⟨Int.natCast_nonneg _, by rw [Table.size, NUM_SYSCALLS]; omega⟩
      have hcall := call_inBounds m u s hh
      rw [hh] at hcall
      simp only [List.forall_mem_cons, hin, true_and, hcall, and_iff_right hne]

def idleMachine : Machine := ⟨[], 0, fun _ => 0⟩

def idleUser : User := ⟨fun _ => [], fun _ => (-1, ⟨0, 0, 0, false, [], []⟩)⟩

def Arrays.start : Arrays where
  openFiles := fun _ => false
  fdAllocArray := fun _ => false
  fdArr := fun _ => ⟨0, 0, 0, 0, false⟩
  openDirectories := fun _ => false
  dirDesc := fun _ => false
  dirIntArr := fun _ => ⟨0, 0, 0, false, [], []⟩

/-- Call number 25 passes the check and is fetched from behind the table, and a write
or a close to what a failed open returned goes outside the arrays. -/
theorem call_25_out_of_bounds :
    ¬ (∀ e ∈ (syscallHandler idleMachine idleUser .start ⟨0, 25, 0, 0⟩).1, InBounds e) ∧
    ¬ (∀ e ∈ (syscallHandler idleMachine idleUser .start ⟨0, 19, -1, 0⟩).1, InBounds e) ∧
    ¬ ∀ e ∈ (syscallHandler idleMachine idleUser .start ⟨-1, 12, 0, 0⟩).1, InBounds e := by
  refine ⟨?_, ?_, ?_⟩
  · exact fun h => absurd (h (.syscalls, 25) List.mem_cons_self) (by decide)
  · intro h
    exact absurd (h (.openFiles, -1) (List.mem_cons_of_mem _ List.mem_cons_self)) (by decide)
  · intro h
    exact absurd (h (.openFiles, -1) (List.mem_cons_of_mem _ List.mem_cons_self)) (by decide)

/-! ## Valid descriptors -/

structure SameFiles (t : Slot) (s : Arrays) (f : Files) : Prop where
  fdAllocArray : ∀ i : Fin 100, f.fdAllocArray i = s.fdAllocArray i.val
  fdArr : ∀ i : Fin 100, f.fdArr i = s.fdArr i.val
  openFiles : ∀ i : Fin 100, f.openFiles t i = s.openFiles i.val

structure SameDirs (t : Slot) (s : Arrays) (d : Dirs) : Prop where
  dirDesc : ∀ i : Fin 100, d.dirDesc i = s.dirDesc i.val
  dirIntArr : ∀ i : Fin 100, d.dirIntArr i = s.dirIntArr i.val
  openDirectories : ∀ i : Fin 100, d.openDirectories t i = s.openDirectories i.val

theorem update_index {α : Type} {f : Fin 100 → α} {g : Int → α} (h : ∀ i : Fin 100, f i = g i.val)
    (fd : Fin 100) (a : α) (i : Fin 100) :
    Function.update f fd a i = Function.update g (fd.val : Int) a i.val := by
  by_cases hi : i = fd
  · rw [hi, Function.update_self, Function.update_self]
  · have hne : (i.val : Int) ≠ fd.val := fun he => hi (Fin.ext (Int.ofNat_inj.mp he))
    rw [Function.update_of_ne hi, Function.update_of_ne hne, h]

theorem searchRecord_files {t : Slot} {f : Files} (h : SameFiles t s f) (i : Fin 100)
    (l : List (Fin 100)) : (searchRecord s i.val (l.map Fin.val)).1 =
      (l.find? fun j => (f.fdArr j).fd = i).elim 10 Fin.val := by
  induction l with
  | nil => rfl
  | cons j l ih =>
    have hiff : ((s.fdArr j.val).fd.val : Int) = i.val ↔ (f.fdArr j).fd = i := by
      rw [h.fdArr, Int.ofNat_inj, Fin.ext_iff]
    rw [List.map_cons, searchRecord, List.find?_cons]
    by_cases hj : (f.fdArr j).fd = i
    · rw [if_pos (hiff.mpr hj), decide_eq_true hj]
      rfl
    · rw [if_neg (fun hc => hj (hiff.mp hc)), decide_eq_false hj]
      exact ih

/-- On a descriptor in the arrays the call is that of the file table. -/
theorem sysRead_files {t : Slot} {f : Files} (h : SameFiles t s f) (mem : Nat → Byte) (i : Fin 100)
    (nBytes : Int) :
    (sysRead mem s i.val nBytes).2.1 = (FileTable.sysRead mem f t i nBytes).1 ∧
      SameFiles t (sysRead mem s i.val nBytes).2.2 (FileTable.sysRead mem f t i nBytes).2 := by
  have hneg : (i.val : Int) ≠ -1 := by omega
  have hten : (List.range 10) = ((List.finRange 100).take 10).map Fin.val := by decide
  have hsearch : (searchRecord s i.val (List.range 10)).1 =
      (FileTable.searchRecord f i).elim 10 Fin.val := by
    rw [hten, searchRecord_files h]
    rfl
  have hread : ∀ j : Fin 100,
      (copied (readLoop mem nBytes.toNat (s.fdArr j.val)).1 =
        (FileTable.readRecord mem f j nBytes).1) ∧
      SameFiles t { s with
        fdArr := Function.update s.fdArr j.val (readLoop mem nBytes.toNat (s.fdArr j.val)).2 }
        (FileTable.readRecord mem f j nBytes).2 := by
    intro j
    rw [FileTable.readRecord, h.fdArr j]
    exact ⟨rfl, h.fdAllocArray, update_index h.fdArr j _, h.openFiles⟩
  rw [sysRead, if_neg hneg, FileTable.sysRead, h.openFiles i]
  obtain ⟨⟨n, es⟩, hr⟩ : ∃ r, searchRecord s i.val (List.range 10) = r := ⟨_, rfl⟩
  rw [hr] at hsearch ⊢
  dsimp only at hsearch ⊢
  split
  · exact ⟨rfl, h⟩
  · cases hfind : FileTable.searchRecord f i with
    | none =>
      rw [hfind, Option.elim_none] at hsearch
      subst hsearch
      rw [if_neg (fun hc => absurd hc.1 (by decide))]
      exact hread 10
    | some j =>
      rw [hfind, Option.elim_some] at hsearch
      subst hsearch
      have hlt : j.val < 10 := by
        have hbound : ∀ j : Fin 100, j ∈ (List.finRange 100).take 10 → j.val < 10 := by decide
        exact hbound j (List.mem_of_find?_eq_some hfind)
      dsimp only
      rw [h.fdArr j]
      by_cases heof : (s.fdArr j.val).eof = true
      · rw [if_pos (And.intro hlt heof), if_pos heof]
        exact ⟨rfl, h⟩
      · rw [if_neg (fun hc : _ ∧ _ => heof hc.2), if_neg heof]
        exact hread j

theorem sysClose_files {t : Slot} {f : Files} (h : SameFiles t s f) (i : Fin 100) :
    SameFiles t (sysClose s i.val).2 (FileTable.sysClose f t i) := by
  refine ⟨update_index h.fdAllocArray i false, h.fdArr, fun j => ?_⟩
  simp only [FileTable.sysClose, FileTable.setFlag, Function.update_self]
  exact update_index h.openFiles i false j

theorem sysClosedir_dirs {t : Slot} {d : Dirs} (h : SameDirs t s d) (i : Fin 100) :
    SameDirs t (sysClosedir s i.val).2 (Directory.sysClosedir d i) :=
  ⟨update_index h.dirDesc i false, h.dirIntArr, h.openDirectories⟩

theorem sysReaddir_dirs {t : Slot} {d : Dirs} (h : SameDirs t s d) (a : List Byte) (dir : Dir) :
    Option.Rel (fun r r' => r.1 = r'.1 ∧ r.2.1 = r'.2.1 ∧ SameDirs t r.2.2 r'.2.2)
      (sysReaddir a s dir.fd.val dir).2 (Directory.sysReaddir a d t dir) := by
  rw [sysReaddir, Directory.sysReaddir, h.openDirectories, h.dirIntArr]
  split
  · exact .some ⟨rfl, rfl, h⟩
  · split
    · exact .some ⟨rfl, rfl, h⟩
    · cases getFileName a dir (s.dirIntArr dir.fd.val) with
      | none => exact .none
      | some r =>
        exact .some ⟨rfl, rfl, h.dirDesc, update_index h.dirIntArr dir.fd _, h.openDirectories⟩

end SyscallTables
