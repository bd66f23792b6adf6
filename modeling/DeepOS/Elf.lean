import DeepOS.LoadedBytes
import DeepOS.PathSearch
import DeepOS.TarSize

/-!
# Executables

`Parse_ELF_Executable` of `sys/elf.c` turns every program header into a segment,
whatever its type, and `map_exe_format` of `sys/read_tarfs.c` copies
`sizeInMemory` bytes from the file for each of them. `get_elf_file` takes the length of
the file from `oct_to_dec` and does not look at the verdict of the parser.
-/
namespace Elf

open CString PhyMem TaskTable PageTable VirtAlloc Process AddressSpace LoadImage Fork KernelInvariant
  Supply LoadedBytes

/-! ## Headers -/

def numberAt (data : Word → Byte) (p : Word) : Nat → Nat
  | 0 => 0
  | n + 1 => (data p).toNat + 256 * numberAt data (p + 1) n

def wordAt (data : Word → Byte) (p : Word) : Word := BitVec.ofNat 64 (numberAt data p 8)

/-- The fields of `programHeader` that are read. -/
structure ProgramHeader where
  type : BitVec 32
  offset : Word
  vaddr : Word
  fileSize : Word
  memSize : Word
  deriving DecidableEq

def programHeaderAt (data : Word → Byte) (p : Word) : ProgramHeader where
  type := BitVec.ofNat 32 (numberAt data p 4)
  offset := wordAt data (p + 8)
  vaddr := wordAt data (p + 16)
  fileSize := wordAt data (p + 32)
  memSize := wordAt data (p + 40)

def entry (data : Word → Byte) : Word := wordAt data 24

def phoff (data : Word → Byte) : Word := wordAt data 32

def phnum (data : Word → Byte) : Nat := numberAt data 56 2

def programHeaders (data : Word → Byte) : List ProgramHeader :=
  (List.range (phnum data)).map fun i => programHeaderAt data (phoff data + BitVec.ofNat 64 (56 * i))

structure ExeSegment where
  offsetInFile : Word
  lengthInFile : Word
  sizeInMemory : Word
  vaddr : Word

structure ExeFormat where
  segmentList : List ExeSegment
  entryAddr : Word

def exeSegment (h : ProgramHeader) : ExeSegment := ⟨h.offset, h.fileSize, h.memSize, h.vaddr⟩

/-- `strncmp`, on as many characters as both strings have. -/
def strncmp : Nat → List Byte → List Byte → Int
  | n + 1, a :: s, b :: t =>
    if a ≠ b then if a < b then -1 else 1
    else if a = 0 then 0
    else strncmp n s t
  | _, _, _ => 0

def magic : List Byte := [0x7F, 0x45, 0x4C, 0x46]

/-- `Parse_ELF_Executable` on a file that starts at `exeFileData`: no format when it
returns 1. -/
def parseElfExecutable (exeFileData : Word → Byte) (exeFileLength : Word) : Option ExeFormat :=
  if exeFileLength < 64 ∨
      strncmp 4 ((List.range 4).map fun i => exeFileData (BitVec.ofNat 64 i)) magic ≠ 0 then none
  else if phnum exeFileData > EXE_MAX_SEGMENTS then none
  else if exeFileLength < phoff exeFileData + BitVec.ofNat 64 (phnum exeFileData * 56) then none
  else some ⟨(programHeaders exeFileData).map exeSegment, entry exeFileData⟩

/-- The parser fills in one segment for each header. -/
theorem parse_format {data : Word → Byte} {len : Word} {f : ExeFormat}
    (h : parseElfExecutable data len = some f) :
    f.segmentList = (programHeaders data).map exeSegment ∧ phnum data ≤ EXE_MAX_SEGMENTS := by
  rw [parseElfExecutable] at h
  split at h
  · cases h
  · split at h
    · cases h
    · split at h
      · cases h
      · rw [Option.some.injEq] at h
        subst h
        exact ⟨rfl, by omega⟩

def ExeSegment.segment (data : Word → Byte) (s : ExeSegment) : Segment where
  vaddr := s.vaddr
  sizeInMemory := s.sizeInMemory
  onDisk := fun i => data (s.offsetInFile + BitVec.ofNat 64 i)

/-- The segments that `map_exe_format` works on. -/
def ExeFormat.segments (f : ExeFormat) (data : Word → Byte) : List Segment :=
  f.segmentList.map (ExeSegment.segment data)

/-- The length decides whether the parser takes the file, and nothing else. -/
theorem parse_unique {data : Word → Byte} {len len' : Word} {f f' : ExeFormat}
    (h : parseElfExecutable data len = some f) (h' : parseElfExecutable data len' = some f') : f = f' := by
  have hformat : ∀ {len f}, parseElfExecutable data len = some f →
      f = ⟨(programHeaders data).map exeSegment, entry data⟩ := by
    intro len f h
    rw [parseElfExecutable] at h
    split_ifs at h
    exact (Option.some.inj h).symm
  rw [hformat h, hformat h']

/-! ## Files in memory -/

def fileData (mem : Word → Byte) (start : Word) (p : Word) : Byte := mem (start + p)

/-- The field `size` of the header in front of the file, and what lies around it. -/
def sizeField (mem : Word → Byte) (start : Word) (i : Int) : Byte := mem (start - 388 + BitVec.ofInt 64 i)

/-- The end of `get_elf_file` for a file that was found. `exeFormat` keeps what it held when
the parser turns the file down. -/
def getExeFormat (fuel : Nat) (mem : Word → Byte) (start : Word) (exeFormat : ExeFormat) : Option ExeFormat :=
  (TarSize.octToDec fuel (sizeField mem start)).map fun r =>
    (parseElfExecutable (fileData mem start) r.1).getD exeFormat

/-- The parser takes the file with the length that `oct_to_dec` gives. -/
def Accepted (mem : Word → Byte) (start : Word) : Prop :=
  ∃ fuel size reads, TarSize.octToDec fuel (sizeField mem start) = some (size, reads) ∧
    (parseElfExecutable (fileData mem start) size).isSome

/-! ## Loading -/

def PT_LOAD : BitVec 32 := 1

def ProgramHeader.byte (h : ProgramHeader) (data : Word → Byte) (n : Nat) : Byte :=
  if n < h.fileSize.toNat then data (h.offset + BitVec.ofNat 64 n) else 0

def ProgramHeader.addr (h : ProgramHeader) (n : Nat) : Word := h.vaddr + BitVec.ofNat 64 n

def Loaded (data : Word → Byte) (k : Kernel) : Prop :=
  ∀ h ∈ programHeaders data, h.type = PT_LOAD → ∀ n < h.memSize.toNat,
    loadByte k (h.addr n) = some (h.byte data n)

/-- The tables in use are sound, and the allocator has `n` frames. -/
def Ready (n : Nat) (k : Kernel) : Prop := ∃ R, Sound R k ∧ k.cr3 ∈ R ∧ n ≤ supply k

/-- The states of a running system are ready as long as there are frames. -/
theorem ready_of_kinv {n : Nat} {k : Kernel} (h : KInv k) (hn : n ≤ supply k) : Ready n k := by
  obtain ⟨t, -, hl, hvirt⟩ := h.current
  have hcr3 : k.cr3 = root k t := by rw [Kernel.cr3, hvirt]; rfl
  exact ⟨liveRoots k, h.sound, hcr3 ▸ mem_liveRoots hl, hn⟩

/-- Whatever the state and the task, the loader ends with all segments in memory. -/
def LoadsFormat (data : Word → Byte) (f : ExeFormat) : Prop :=
  ∀ (k : Kernel) (t : Slot), Ready (framesNeeded (f.segments data)) k →
    ∃ k', mapExeFormat k t (f.segments data) = some k' ∧ Loaded data k'

/-- The same with the format that `get_elf_file` leaves, whatever was there before the call. -/
def LoadsAll (mem : Word → Byte) (start : Word) : Prop :=
  ∀ exeFormat, ∃ fuel f, getExeFormat fuel mem start exeFormat = some f ∧ LoadsFormat (fileData mem start) f

/-- For each byte of a `PT_LOAD` segment the last header, of any type, that has a
page there has the same byte to put there. -/
structure InOrder (data : Word → Byte) (f : ExeFormat) : Prop where
  canonical : ∀ s ∈ f.segments data, ∀ i < s.sizeInMemory.toNat,
    Canonical (s.vaddr + BitVec.ofNat 64 i)
  last : ∀ h ∈ programHeaders data, h.type = PT_LOAD → ∀ n < h.memSize.toNat,
    ∃ s, lastOver (f.segments data) (h.addr n) = some s ∧ Contains s (h.addr n) ∧
      s.onDisk ((h.addr n).toNat - s.vaddr.toNat) = h.byte data n

/-- The kernel has the addresses from `kernmem` minus `physbase` on. -/
def KERNEL_START : Nat := 0xFFFFFFFF80000000

def BelowKernel (f : ExeFormat) : Prop :=
  ∀ s ∈ f.segmentList, s.vaddr.toNat + s.sizeInMemory.toNat < KERNEL_START

section

variable {data : Word → Byte} {len : Word} {f : ExeFormat}

theorem BelowKernel.bound (hb : BelowKernel f) {s : Segment} (hs : s ∈ f.segments data) :
    s.vaddr.toNat + s.sizeInMemory.toNat < KERNEL_START := by
  obtain ⟨s', hs', rfl⟩ := List.mem_map.mp hs
  exact hb s' hs'

theorem BelowKernel.linked (hb : BelowKernel f) {s : Segment} (hs : s ∈ f.segments data) : Linked s := by
  have hlt := hb.bound hs
  rw [KERNEL_START] at hlt
  rw [Linked, dumb_toNat]
  omega

/-- The segment of a header. -/
theorem header_segment (hparse : parseElfExecutable data len = some f) {h : ProgramHeader}
    (hh : h ∈ programHeaders data) : (exeSegment h).segment data ∈ f.segments data := by
  rw [ExeFormat.segments, (parse_format hparse).1, List.map_map]
  exact List.mem_map.mpr ⟨h, hh, rfl⟩

/-- The bytes of a header are in its segment. -/
theorem addr_contains (hparse : parseElfExecutable data len = some f) (hb : BelowKernel f)
    {h : ProgramHeader} (hh : h ∈ programHeaders data) {n : Nat} (hn : n < h.memSize.toNat) :
    Contains ((exeSegment h).segment data) (h.addr n) := by
  have hbound := hb.bound (header_segment hparse hh)
  have hv : ((exeSegment h).segment data).vaddr = h.vaddr := rfl
  have hm : ((exeSegment h).segment data).sizeInMemory = h.memSize := rfl
  rw [KERNEL_START, hv, hm] at hbound
  rw [Contains, hv, hm, ProgramHeader.addr, BitVec.toNat_add, BitVec.toNat_ofNat]
  omega

theorem lastOver_of_mem {segments : List Segment} {s : Segment} {x : Word} (hs : s ∈ segments)
    (hc : Covers s x) : ∃ s', lastOver segments x = some s' := by
  rw [← Option.isSome_iff_exists, lastOver, List.find?_isSome]
  exact ⟨s, List.mem_reverse.mpr hs, by simpa using hc⟩

/-- What the loader leaves, with the leftovers of the free frames. -/
theorem load_view {k : Kernel} {R : Set Nat} (t : Slot) (hb : BelowKernel f)
    (hcan : ∀ s ∈ f.segments data, ∀ i < s.sizeInMemory.toNat, Canonical (s.vaddr + BitVec.ofNat 64 i))
    (hk : Sound R k) (hr : k.cr3 ∈ R) (hroom : framesNeeded (f.segments data) ≤ supply k) :
    ∃ k', mapExeFormat k t (f.segments data) = some k' ∧
      View R k k' ((f.segments data).foldl Shown.segment fun _ => none) := by
  have hplaced : ∀ s ∈ f.segments data, Placed s := fun s hs => ⟨hb.linked hs, hcan s hs⟩
  obtain ⟨r, hrun, hview, -⟩ := (view_start hk).mapSegments (t := t) hr _ hplaced VMA_SEGMENT_START hroom
  refine ⟨r.1, ?_, hview⟩
  rw [mapExeFormat, hrun]
  rfl

theorem InOrder.loads (h : InOrder data f) (hb : BelowKernel f)
    (hparse : parseElfExecutable data len = some f) : LoadsFormat data f := by
  rintro k t ⟨R, hk, hr, hroom⟩
  obtain ⟨k', hload, hview⟩ := load_view t hb h.canonical hk hr hroom
  refine ⟨k', hload, ?_⟩
  intro p hp htype n hn
  obtain ⟨s, hlast, hin, hbyte⟩ := h.last p hp htype n hn
  have hcan : Canonical (p.addr n) := h.canonical _ (header_segment hparse hp) n hn
  have hval : (f.segments data).foldl Shown.segment (fun _ => none) (p.addr n) =
      some (some (p.byte data n)) := by
    rw [foldl_segment, hlast]
    simp only [if_pos hin, hbyte]
  obtain ⟨g, -, hread⟩ := hview.loadByte hcan hval
  exact hread

theorem lastOver_some {segments : List Segment} {s : Segment} {x : Word}
    (h : lastOver segments x = some s) : s ∈ segments ∧ Covers s x :=
  ⟨List.mem_reverse.mp (List.mem_of_find?_eq_some h), by simpa using List.find?_some h⟩

/-- No two headers share a page, and no memory is asked for behind the file bytes. -/
theorem inOrder_of_apart (hparse : parseElfExecutable data len = some f) (hb : BelowKernel f)
    (hcan : ∀ s ∈ f.segments data, ∀ i < s.sizeInMemory.toNat, Canonical (s.vaddr + BitVec.ofNat 64 i))
    (hsize : ∀ h ∈ programHeaders data, h.type = PT_LOAD → h.fileSize = h.memSize)
    (hapart : (programHeaders data).Pairwise fun h h' => ∀ x,
      ¬ (Covers ((exeSegment h).segment data) x ∧ Covers ((exeSegment h').segment data) x)) :
    InOrder data f := by
  refine ⟨hcan, ?_⟩
  intro h hh htype n hn
  have hmem := header_segment hparse hh
  have hin := addr_contains hparse hb hh hn
  have hcov := Linked.covers (hb.linked hmem) hin
  obtain ⟨s, hlast⟩ := lastOver_of_mem hmem hcov
  obtain ⟨hs, hscov⟩ := lastOver_some hlast
  rw [ExeFormat.segments, (parse_format hparse).1, List.map_map] at hs
  obtain ⟨h', hh', rfl⟩ := List.mem_map.mp hs
  have hsame : h' = h := by
    by_contra hne
    have hsymm : Std.Symm fun h h' : ProgramHeader => ∀ x,
        ¬ (Covers ((exeSegment h).segment data) x ∧ Covers ((exeSegment h').segment data) x) :=
      ⟨fun _ _ hx x hc => hx x hc.symm⟩
    exact hapart.forall hh' hh hne (h.addr n) ⟨hscov, hcov⟩
  subst hsame
  have hbound := hb.bound hmem
  have hv : ((exeSegment h').segment data).vaddr = h'.vaddr := rfl
  have hm : ((exeSegment h').segment data).sizeInMemory = h'.memSize := rfl
  rw [KERNEL_START, hv, hm] at hbound
  have hplace : (h'.addr n).toNat - h'.vaddr.toNat = n := by
    rw [ProgramHeader.addr, BitVec.toNat_add, BitVec.toNat_ofNat]
    omega
  refine ⟨_, hlast, hin, ?_⟩
  rw [ProgramHeader.byte, hsize h' hh htype, if_pos hn]
  change data (h'.offset + BitVec.ofNat 64 ((h'.addr n).toNat - h'.vaddr.toNat)) = _
  rw [hplace]

/-! ## Other leftovers -/

/-- The free frames can hold any word that is no present entry. -/
theorem exists_refill {k : Kernel} {R : Set Nat} (hk : Sound R k) {w : Word} (hw : isPresent w = false) :
    ∃ k', Sound R k' ∧ k'.cr3 = k.cr3 ∧ k'.memMap = k.memMap ∧
      ∀ f ∈ freeFrames k.memMap, k'.mem f = fun _ => w := by
  classical
  let m : Nat → Fin 512 → Word := fun f => if f ∈ freeFrames k.memMap then fun _ => w else k.mem f
  have hfree : ∀ f ∈ freeFrames k.memMap, m f = fun _ => w := fun f hf => if_pos hf
  have hused : ∀ f ∈ RadixForest.nodes next 3 k.mem R, m f = k.mem f :=
    fun f hf => if_neg (hk.inv.used f hf)
  have hblank : ∀ f ∈ freeFrames k.memMap, ∀ i, isPresent (m f i) = false := by
    intro f hf i
    rw [hfree f hf]
    exact hw
  let k' : Kernel := { k with mem := m }
  have hk' : Sound R k' := (@Sound.of_nodes R k k' hk rfl hused hblank).1
  exact ⟨k', hk', rfl, rfl, hfree⟩

/-- What is read agrees with what is shown, whatever the free frames held. -/
theorem LoadsFormat.shown (h : LoadsFormat data f) (hb : BelowKernel f)
    (hcan : ∀ s ∈ f.segments data, ∀ i < s.sizeInMemory.toNat, Canonical (s.vaddr + BitVec.ofNat 64 i))
    (hroom : ∃ k, Ready (framesNeeded (f.segments data)) k) {p : ProgramHeader}
    (hp : p ∈ programHeaders data) (htype : p.type = PT_LOAD) {n : Nat} (hn : n < p.memSize.toNat)
    (haddr : Canonical (p.addr n)) {c : Option Byte}
    (hval : (f.segments data).foldl Shown.segment (fun _ => none) (p.addr n) = some c)
    {w : Word} (hw : isPresent w = false) :
    p.byte data n = c.getD (getByte w ((p.addr n).toNat % 8)) := by
  obtain ⟨k, R, hk, hr, hn'⟩ := hroom
  obtain ⟨k₀, hk₀, hcr3, hmap, hmem⟩ := exists_refill hk hw
  have hr₀ : k₀.cr3 ∈ R := hcr3 ▸ hr
  have hroom₀ : framesNeeded (f.segments data) ≤ supply k₀ := by
    rw [supply, hmap]
    exact hn'
  obtain ⟨k', hload, hview⟩ := load_view 0 hb hcan hk₀ hr₀ hroom₀
  obtain ⟨k'', hload', hall⟩ := h k₀ 0 ⟨R, hk₀, hr₀, hroom₀⟩
  obtain rfl : k' = k'' := Option.some.inj (hload.symm.trans hload')
  obtain ⟨g, hg, hread⟩ := hview.loadByte haddr hval
  have hbyte := (hall p hp htype n hn).symm.trans hread
  rw [hmem g (hmap ▸ hg), byteIn] at hbyte
  exact Option.some.inj hbyte

theorem LoadsFormat.inOrder (h : LoadsFormat data f) (hb : BelowKernel f)
    (hparse : parseElfExecutable data len = some f)
    (hroom : ∃ k, Ready (framesNeeded (f.segments data)) k) : InOrder data f := by
  have hcan : ∀ s ∈ f.segments data, ∀ i < s.sizeInMemory.toNat,
      Canonical (s.vaddr + BitVec.ofNat 64 i) := by
    obtain ⟨k, hk⟩ := hroom
    obtain ⟨k', hload, -⟩ := h k 0 hk
    obtain ⟨r, hrun, -⟩ := Option.map_eq_some_iff.mp hload
    exact canonical_of_run _ (fun s hs => hb.linked hs) hrun
  refine ⟨hcan, ?_⟩
  intro p hp htype n hn
  have hmem := header_segment hparse hp
  have hin := addr_contains hparse hb hp hn
  obtain ⟨s, hlast⟩ := lastOver_of_mem hmem (Linked.covers (hb.linked hmem) hin)
  have hshown := foldl_segment (f.segments data) (fun _ => none) (p.addr n)
  simp only [hlast] at hshown
  have hread := fun w hw => h.shown hb hcan hroom hp htype hn (hcan _ hmem n hn) hshown (w := w) hw
  by_cases hc : Contains s (p.addr n)
  · refine ⟨s, hlast, hc, ?_⟩
    rw [if_pos hc] at hread
    exact (hread 0 (by decide)).symm
  · -- the byte of a leftover would be 0 and 0xFE at once
    rw [if_neg hc] at hread
    have hplace : (p.addr n).toNat % 8 < 8 := Nat.mod_lt _ (by decide)
    have hleft : ∀ i < 8, getByte 0 i ≠ getByte 0xFEFEFEFEFEFEFEFE i := by decide
    have hzero := hread 0 (by decide)
    have hfull := hread 0xFEFEFEFEFEFEFEFE (by decide)
    exact absurd (hzero.symm.trans hfull) (hleft _ hplace)

end

/-! ## A small machine -/

/-- Tables in the frames 1 to 4: the window over the first 512 frames, and nothing else. -/
def smallMem (f : Nat) (i : Fin 512) : Word :=
  if f = 1 then if i = 511 then mkEntry (frameAddr 2) else 0
  else if f = 2 then if i = 511 then mkEntry (frameAddr 3) else 0
  else if f = 3 then if i = 384 then mkEntry (frameAddr 4) else 0
  else if f = 4 then mkEntry (frameAddr i.val)
  else 0

/-- The frames 8 to 15 are free. -/
def smallMachine : Kernel where
  mem := smallMem
  memMap := fun i => if i = 0 then 0xFF00 else 0
  tasks := fun _ => TaskMem.zero
  currentMemUsage := fun _ => 0
  currentTask := none
  curPml4eVirt := window 1

theorem small_free (f : Nat) : f ∈ freeFrames smallMachine.memMap ↔ 8 ≤ f ∧ f < 16 := by
  have hbits : ∀ i : Fin 64, (0xFF00 : Word).getLsbD i.val = decide (8 ≤ i.val ∧ i.val < 16) := by decide
  rw [mem_freeFrames, mmapTest, BitArray.test_eq, FRAMES]
  change _ ∧ (if f / 64 = 0 then (0xFF00 : Word) else 0).getLsbD (f % 64) = true ↔ _
  by_cases hf : f < 64
  · have hi := hbits ⟨f, hf⟩
    simp only at hi
    rw [if_pos (Nat.div_eq_of_lt hf), Nat.mod_eq_of_lt hf, hi, decide_eq_true_eq]
    omega
  · rw [if_neg (by omega)]
    simp
    omega

theorem small_tree : RadixForest.TreeIn next 3 smallMem 1 {1, 2, 3, 4} := by
  have haddr : ∀ g < 512, next (mkEntry (frameAddr g)) = some g := by
    intro g hg
    rw [next_mkEntry, frameOf_frameAddr (by rw [FRAMES]; omega)]
  have hnone : next 0 = none := rfl
  have h4 : RadixForest.TreeIn next 0 smallMem 4 {4} := .single 4
  have h3 : RadixForest.TreeIn next 1 smallMem 3 {3, 4} := by
    refine .cons (i := 384) (by simp) ?_ ?_ h4
    · exact haddr 4 (by decide)
    · intro j hj
      simpa [smallMem, hj] using hnone
  have h2 : RadixForest.TreeIn next 2 smallMem 2 {2, 3, 4} := by
    refine .cons (i := 511) (by simp) ?_ ?_ h3
    · exact haddr 3 (by decide)
    · intro j hj
      simpa [smallMem, hj] using hnone
  refine .cons (i := 511) (by simp) ?_ ?_ h2
  · exact haddr 2 (by decide)
  · intro j hj
    simpa [smallMem, hj] using hnone

theorem small_walk {f : Nat} (hf : f < 512) : walk smallMachine 1 (window f) = some (mkEntry (frameAddr f)) := by
  have hwin := window_toNat (g := f) (by rw [WINDOW_FRAMES]; omega)
  have hpath : pathOf (window f) = [511, 511, 384] := by
    simp only [pathOf, List.cons.injEq, and_true, pml4eIndex, pdpeIndex, pdeIndex, Fin.ext_iff,
      index_val, hwin]
    refine ⟨?_, ?_, ?_⟩
    · change _ = 511
      omega
    · change _ = 511
      omega
    · change _ = 384
      omega
  have hindex : ptIndex (window f) = ⟨f, hf⟩ := by
    rw [Fin.ext_iff, ptIndex, index_val, hwin]
    change _ = f
    omega
  have haddr : ∀ g < 512, next (mkEntry (frameAddr g)) = some g := by
    intro g hg
    rw [next_mkEntry, frameOf_frameAddr (by rw [FRAMES]; omega)]
  rw [walk, hpath, hindex, RadixForest.leaf_eq_some]
  refine ⟨4, ?_, ?_, rfl⟩
  · simp [RadixForest.follow, smallMachine, smallMem, haddr]
  · rw [haddr f hf]
    rfl

theorem small_sound : Sound {1} smallMachine := by
  have htree := small_tree
  have hnodes : ∀ f ∈ RadixForest.nodes next 3 smallMachine.mem {1}, f = 1 ∨ f = 2 ∨ f = 3 ∨ f = 4 := by
    rintro f ⟨r, rfl, p, hp, hf⟩
    simpa using htree.mem p f hp hf
  have hcore : ∀ f ∈ core {1} smallMachine, 0 < f ∧ f < 512 := by
    rintro f (hf | hf)
    · have hfree := (small_free f).mp hf
      omega
    · have hnode := hnodes f hf
      omega
  refine ⟨⟨?_, ?_, ?_, ?_, ?_⟩, ?_, ?_, ?_⟩
  · rintro r rfl r' rfl p p' f hp hp' hf hf'
    exact ⟨rfl, htree.inj p p' f hp hp' hf hf'⟩
  · intro f hf
    have hnode := hnodes f hf
    rw [WINDOW_FRAMES]
    omega
  · intro f hf hfree
    have hnode := hnodes f hf
    have hrange := (small_free f).mp hfree
    omega
  · intro h0
    have hrange := (small_free 0).mp h0
    omega
  · intro f hf i
    have hrange := (small_free f).mp hf
    have hzero : smallMachine.mem f i = 0 := by
      change smallMem f i = 0
      rw [smallMem, if_neg (by omega), if_neg (by omega), if_neg (by omega), if_neg (by omega)]
    rw [hzero]
    rfl
  · intro f hf
    have hrange := (small_free f).mp hf
    rw [WINDOW_FRAMES]
    omega
  · intro h0
    exact absurd (hcore 0 h0).1 (by decide)
  · rintro r rfl f hf
    exact small_walk (hcore f hf).2

theorem small_ready {n : Nat} (hn : n ≤ 8) : Ready n smallMachine := by
  have hset : freeFrames smallMachine.memMap = ↑(Finset.Ico 8 16) := by
    ext f
    rw [small_free, Finset.coe_Ico, Set.mem_Ico]
  refine ⟨{1}, small_sound, ?_, ?_⟩
  · rw [Set.mem_singleton_iff]
    rfl
  · rw [supply, hset, Set.ncard_coe_finset]
    exact hn

/-! ## The whole call -/

/-- A format that asks for an address which the processor does not accept. -/
def wildFormat : ExeFormat := ⟨[⟨0, 0, 1, 0x800000000000⟩], 0⟩

theorem wild_not_loaded (data : Word → Byte) : ¬ LoadsFormat data wildFormat := by
  intro h
  let wild : Segment := ExeSegment.segment data ⟨0, 0, 1, 0x800000000000⟩
  have hpages : wild.pageNeeded = 1 := by
    simp [wild, ExeSegment.segment, Segment.pageNeeded, Segment.maxEnd, Segment.leastStart]
  have hsegments : wildFormat.segments data = [wild] := List.map_singleton
  have hneed : framesNeeded (wildFormat.segments data) = 4 * wild.pageNeeded.toNat := by
    rw [hsegments, framesNeeded, List.map_singleton, List.sum_singleton]
  have hb : BelowKernel wildFormat := by
    intro s hs
    obtain rfl := List.mem_singleton.mp hs
    decide
  obtain ⟨k', hload, -⟩ := h smallMachine 0 (small_ready (by rw [hneed, hpages]; decide))
  obtain ⟨r, hrun, -⟩ := Option.map_eq_some_iff.mp hload
  have hcan : Canonical (0x800000000000 + BitVec.ofNat 64 0) :=
    canonical_of_run _ (fun s hs => hb.linked hs) hrun wild List.mem_cons_self 0 Nat.one_pos
  exact absurd hcan (by decide)

/-- The premises on an executable of `len` bytes: its `PT_LOAD` segments lie apart
and in the file. -/
structure WellFormed (data : Word → Byte) (len : Nat) : Prop where
  sizes : ∀ h ∈ programHeaders data, h.type = PT_LOAD → h.fileSize ≤ h.memSize
  inside : ∀ h ∈ programHeaders data, h.type = PT_LOAD → h.offset.toNat + h.fileSize.toNat ≤ len
  disjoint : ((programHeaders data).filter fun h => h.type = PT_LOAD).Pairwise fun h h' =>
    h.vaddr.toNat + h.memSize.toNat ≤ h'.vaddr.toNat ∨ h'.vaddr.toNat + h'.memSize.toNat ≤ h.vaddr.toNat

/-- A file of 122 bytes whose one segment takes the last but one of them to `0x400000`. -/
def oneSegment (memSize : Byte) : List Byte :=
  magic ++ List.replicate 28 0 ++ [64] ++ List.replicate 23 0 ++ [1] ++ List.replicate 7 0 ++
    [1] ++ List.replicate 7 0 ++ [120] ++ List.replicate 9 0 ++ [0x40] ++ List.replicate 13 0 ++
    [1] ++ List.replicate 7 0 ++ [memSize] ++ List.replicate 15 0 ++ [7, 9]

def sizeDigits : List Byte := List.replicate 8 48 ++ [49, 55, 50, 0]

def tarOf (memSize : Byte) (p : Word) : Byte :=
  if p < 512 then sizeDigits.getD (p.toNat - 124) 0 else (oneSegment memSize).getD (p.toNat - 512) 0

abbrev fileOf (memSize : Byte) : Word → Byte := fileData (tarOf memSize) 512

def oneHeader (memSize : Byte) : ProgramHeader := ⟨1, 120, 0x400000, 1, memSize.setWidth 64⟩

def oneFormat (memSize : Byte) : ExeFormat := ⟨[exeSegment (oneHeader memSize)], 0⟩

theorem parse_oneSegment {m : Byte} (hm : m = 1 ∨ m = 2) :
    programHeaders (fileOf m) = [oneHeader m] ∧
      parseElfExecutable (fileOf m) 122 = some (oneFormat m) := by
  have hmagic : strncmp 4 ((List.range 4).map fun i => fileOf m (BitVec.ofNat 64 i)) magic = 0 := by
    rcases hm with rfl | rfl <;> decide +kernel
  have hnum : phnum (fileOf m) = 1 := by rcases hm with rfl | rfl <;> decide +kernel
  have hoff : phoff (fileOf m) = 64 := by rcases hm with rfl | rfl <;> decide +kernel
  have hentry : entry (fileOf m) = 0 := by rcases hm with rfl | rfl <;> decide +kernel
  have hheaders : programHeaders (fileOf m) = [oneHeader m] := by
    rcases hm with rfl | rfl <;> decide +kernel
  refine ⟨hheaders, ?_⟩
  rw [parseElfExecutable, hmagic, hnum, hoff, hheaders, hentry]
  rfl

theorem oneFormat_below {m : Byte} : BelowKernel (oneFormat m) := by
  have hlt := m.isLt
  intro s hs
  obtain rfl : s = exeSegment (oneHeader m) := by simpa [oneFormat] using hs
  change 0x400000 + (m.setWidth 64).toNat < KERNEL_START
  rw [BitVec.toNat_setWidth, KERNEL_START]
  omega

theorem oneFormat_ready {m : Byte} (hm : m = 1 ∨ m = 2) :
    ∃ k, Ready (framesNeeded ((oneFormat m).segments (fileOf m))) k := by
  have hneed : framesNeeded ((oneFormat m).segments (fileOf m)) = 4 := by
    rcases hm with rfl | rfl <;> decide +kernel
  exact ⟨smallMachine, small_ready (by rw [hneed]; decide)⟩

/-- The size field gives the length of the file. -/
theorem tarOf_accepted {m : Byte} (hm : m = 1 ∨ m = 2) : Accepted (tarOf m) 512 := by
  have hsize : (TarSize.octToDec 12 (sizeField (tarOf m) 512)).map Prod.fst = some 122 := by
    rcases hm with rfl | rfl <;> decide +kernel
  obtain ⟨⟨size, reads⟩, hread, rfl⟩ := Option.map_eq_some_iff.mp hsize
  exact ⟨12, 122, reads, hread, Option.isSome_iff_exists.mpr ⟨_, (parse_oneSegment hm).2⟩⟩

end Elf
