import DeepOS.BootTables

/-!
# The image of the kernel

`map_kernel` has one last table for the image. Page `i` of the image goes to entry
`i % 512` of it, so a page behind the first two megabytes replaces an earlier one.
-/
namespace KernelImage

open PhyMem PageTable PageMap Boot
open RadixForest (follow leaf put)

variable {k k' : Kernel} {pml4e physbase physfree : Word}

/-! ## The four tables -/

/-- A new table is a frame that was free, and one entry leads to it. -/
theorem newTable_some {table t : Word} {i : Fin 512} (hs : newTable k table i = some (t, k')) :
    frameOf t ∈ freeFrames k.memMap ∧ freeFrames k'.memMap = freeFrames k.memMap \ {frameOf t} ∧
      k'.mem = put k.mem (frameOf table) i (mkEntry t) := by
  rw [newTable, Option.map_eq_some_iff] at hs
  obtain ⟨⟨p, k₁⟩, halloc, hres⟩ := hs
  obtain ⟨rfl, rfl⟩ := Prod.mk.inj hres
  obtain ⟨g, hg, rfl, rfl⟩ := pageAlloc_some halloc
  rw [frameOf_frameAddr (freeFrames_lt hg.1)]
  exact ⟨hg.1, freeFrames_unset _ _, rfl⟩

/-- Three links lead to the last table, and it is none of the tables they are in. -/
structure ImagePath (k : Kernel) (root pdpt pdt pt : Nat) : Prop where
  first : next (k.mem root (pml4eIndex kernmem)) = some pdpt
  second : next (k.mem pdpt (pdpeIndex kernmem)) = some pdt
  third : next (k.mem pdt (pdeIndex kernmem)) = some pt
  root : root ≠ pt
  pdpt : pdpt ≠ pt
  pdt : pdt ≠ pt

/-- `map_kernel` is its loop, with the path to the last table in place. -/
theorem mapKernel_loop (hs : mapKernel k physbase physfree = some (pml4e, k')) :
    ∃ pdpt pdt pt k₁, ImagePath k₁ (frameOf pml4e) pdpt pdt (frameOf pt) ∧
      k' = (List.range (kernelPages physbase physfree)).foldl (mapKernelPage pt physbase) k₁ := by
  simp only [mapKernel, bind, Option.bind_eq_some_iff] at hs
  obtain ⟨⟨p₀, k₀⟩, h₀, ⟨p₁, k₁⟩, h₁, ⟨p₂, k₂⟩, h₂, ⟨p₃, k₃⟩, h₃, hs⟩ := hs
  obtain ⟨rfl, rfl⟩ := Prod.mk.inj (Option.some.inj hs)
  obtain ⟨g, hg, rfl, rfl⟩ := pageAlloc_some h₀
  obtain ⟨hf₁, hfree₁, hm₁⟩ := newTable_some h₁
  obtain ⟨hf₂, hfree₂, hm₂⟩ := newTable_some h₂
  obtain ⟨hf₃, -, hm₃⟩ := newTable_some h₃
  rw [hfree₂, hfree₁, freeFrames_unset] at hf₃
  rw [hfree₁, freeFrames_unset] at hf₂
  rw [freeFrames_unset] at hf₁
  rw [frameOf_frameAddr (freeFrames_lt hg.1)] at hm₁ ⊢
  -- each frame was taken out before the next one
  have h₁₀ : frameOf p₁ ≠ g := hf₁.2
  have h₂₁ : frameOf p₂ ≠ frameOf p₁ := hf₂.2
  have h₂₀ : frameOf p₂ ≠ g := hf₂.1.2
  have h₃₂ : frameOf p₃ ≠ frameOf p₂ := hf₃.2
  have h₃₁ : frameOf p₃ ≠ frameOf p₁ := hf₃.1.2
  have h₃₀ : frameOf p₃ ≠ g := hf₃.1.1.2
  refine ⟨frameOf p₁, frameOf p₂, p₃, k₃, ⟨?_, ?_, ?_, h₃₀.symm, h₃₁.symm, h₃₂.symm⟩, rfl⟩
  · rw [hm₃, RadixForest.put_of_ne _ h₂₀.symm, hm₂, RadixForest.put_of_ne _ h₁₀.symm, hm₁,
      RadixForest.put_self, next_mkEntry]
  · rw [hm₃, RadixForest.put_of_ne _ h₂₁.symm, hm₂, RadixForest.put_self, next_mkEntry]
  · rw [hm₃, RadixForest.put_self, next_mkEntry]

/-! ## The last table -/

/-- The last of the first `n` pages of the image that goes to entry `j`. -/
def lastPage (n j : Nat) : Nat := j + 512 * ((n - 1 - j) / 512)

theorem ptIndex_image (i : Nat) : ptIndex (kernmem + BitVec.ofNat 64 (i * 0x1000)) = Fin.ofNat 512 i := by
  rw [Fin.ext_iff, ptIndex, index_val, Fin.val_ofNat, BitVec.toNat_add, BitVec.toNat_ofNat,
    show kernmem.toNat = 18446744071564165120 from rfl]
  omega

/-- Within the first two megabytes all pages of the image have the same tables. -/
theorem pathOf_image {i : Nat} (hi : i < 512) :
    pathOf (kernmem + BitVec.ofNat 64 (i * 0x1000)) = pathOf kernmem := by
  have hv : (kernmem + BitVec.ofNat 64 (i * 0x1000)).toNat = 18446744071564165120 + i * 0x1000 := by
    rw [BitVec.toNat_add, BitVec.toNat_ofNat, show kernmem.toNat = 18446744071564165120 from rfl]
    omega
  simp only [pathOf, List.cons.injEq, and_true, pml4eIndex, pdpeIndex, pdeIndex, Fin.ext_iff,
    index_val, hv, show kernmem.toNat = 18446744071564165120 from rfl]
  omega

section

variable {pt : Word}

theorem image_succ (n : Nat) :
    ((List.range (n + 1)).foldl (mapKernelPage pt physbase) k).mem =
      put ((List.range n).foldl (mapKernelPage pt physbase) k).mem (frameOf pt) (Fin.ofNat 512 n)
        (mkEntry (physbase + BitVec.ofNat 64 (n * 0x1000))) := by
  rw [List.range_succ, List.foldl_append, List.foldl_cons, List.foldl_nil, mapKernelPage, ptIndex_image]
  rfl

/-- The loop writes nowhere else. -/
theorem image_outside (n : Nat) {f : Nat} (hf : f ≠ frameOf pt) :
    ((List.range n).foldl (mapKernelPage pt physbase) k).mem f = k.mem f := by
  induction n with
  | zero => rfl
  | succ n ih =>
    rw [image_succ, RadixForest.put_of_ne _ hf]
    exact ih

/-- An entry holds the page that was written to it last. -/
theorem image_entry {n j : Nat} (hj : j < 512) (hn : j < n) :
    ((List.range n).foldl (mapKernelPage pt physbase) k).mem (frameOf pt) (Fin.ofNat 512 j) =
      mkEntry (physbase + BitVec.ofNat 64 (lastPage n j * 0x1000)) := by
  induction n with
  | zero => omega
  | succ n ih =>
    rw [image_succ]
    by_cases hlast : n % 512 = j
    · have hindex : Fin.ofNat 512 n = Fin.ofNat 512 j := Fin.ext (by
        rw [Fin.val_ofNat, Fin.val_ofNat]
        omega)
      rw [hindex, RadixForest.put_self, show lastPage (n + 1) j = n by rw [lastPage]; omega]
    · have hindex : Fin.ofNat 512 j ≠ Fin.ofNat 512 n := fun he => by
        rw [Fin.ext_iff, Fin.val_ofNat, Fin.val_ofNat] at he
        omega
      rw [RadixForest.put_index_of_ne _ _ hindex, ih (by omega),
        show lastPage (n + 1) j = lastPage n j by rw [lastPage, lastPage]; omega]

end

/-- Where the pages of the first two megabytes are mapped to. -/
theorem image_translate (hs : mapKernel k physbase physfree = some (pml4e, k')) {j : Nat}
    (hj : j < 512) (hn : j < kernelPages physbase physfree) :
    translate k' (frameOf pml4e) (kernmem + BitVec.ofNat 64 (j * 0x1000)) =
      some (frameOf (physbase + BitVec.ofNat 64 (lastPage (kernelPages physbase physfree) j * 0x1000))) := by
  obtain ⟨pdpt, pdt, pt, k₁, hpath, rfl⟩ := mapKernel_loop hs
  have hfollow : follow next ((List.range (kernelPages physbase physfree)).foldl
      (mapKernelPage pt physbase) k₁).mem (frameOf pml4e) (pathOf kernmem) = some (frameOf pt) := by
    simp only [pathOf, follow]
    rw [image_outside _ hpath.root, hpath.first, Option.bind_some, image_outside _ hpath.pdpt,
      hpath.second, Option.bind_some, image_outside _ hpath.pdt, hpath.third, Option.bind_some]
  rw [PageTable.translate, walk, pathOf_image hj, ptIndex_image, leaf, hfollow, Option.bind_some,
    image_entry hj hn, next_mkEntry, Option.isSome_some, if_pos rfl, Option.map_some, frameOf_mkEntry]

/-- A page of the image in the range of the loop. -/
theorem lt_kernelPages {i : Nat} :
    i < kernelPages physbase physfree ↔
      physbase.toNat + 4096 * i < (PHYSBASE_OFFSET + physfree).toNat := by
  rw [kernelPages]
  omega

/-- The pages of an image are all mapped where they lie exactly when the image with
its offset is not longer than the two megabytes of one table. -/
theorem image_translated_iff (hs : mapKernel k physbase physfree = some (pml4e, k')) :
    (∀ i, physbase.toNat + 4096 * i < (PHYSBASE_OFFSET + physfree).toNat →
      translate k' (frameOf pml4e) (kernmem + BitVec.ofNat 64 (i * 0x1000)) =
        some (frameOf (physbase + BitVec.ofNat 64 (i * 0x1000)))) ↔
      (PHYSBASE_OFFSET + physfree).toNat ≤ physbase.toNat + 0x200000 := by
  have hlt := (PHYSBASE_OFFSET + physfree).isLt
  constructor
  · intro h
    by_contra hlong
    -- the first page of the image is replaced by a later one
    have h₀ := h 0 (by omega)
    have hpages : 512 < kernelPages physbase physfree := lt_kernelPages.mpr (by omega)
    rw [image_translate hs (by decide) (by omega), Option.some.injEq] at h₀
    have hlast : lastPage (kernelPages physbase physfree) 0 < kernelPages physbase physfree := by
      rw [lastPage]
      omega
    have hfar : 512 ≤ lastPage (kernelPages physbase physfree) 0 := by
      rw [lastPage]
      omega
    generalize lastPage (kernelPages physbase physfree) 0 = i at h₀ hlast hfar
    have hi := lt_kernelPages.mp hlast
    simp only [frameOf, PHYS_PAGE_SIZE, BitVec.toNat_add, BitVec.toNat_ofNat] at h₀
    omega
  · intro hshort i hi
    have hn : i < kernelPages physbase physfree := lt_kernelPages.mpr hi
    have hsmall : kernelPages physbase physfree ≤ 512 := by
      rw [kernelPages]
      omega
    rw [image_translate hs (by omega) hn,
      show lastPage (kernelPages physbase physfree) i = i by rw [lastPage]; omega]

def fourFrames : Kernel where
  mem := fun _ _ => 0
  memMap := fun i => if i = 0 then 0b11110 else 0
  tasks := fun _ => TaskMem.zero
  currentMemUsage := fun _ => 0
  currentTask := none
  curPml4eVirt := 0

/-- An image of 128 KB. -/
theorem small_image_translated :
    ∃ k', mapKernel fourFrames 0x200000 0x220000 = some (0x1000, k') ∧
      translate k' 1 (kernmem + BitVec.ofNat 64 (31 * 0x1000)) = some 0x21F := by
  have hroot : (mapKernel fourFrames 0x200000 0x220000).map Prod.fst = some 0x1000 := by decide +kernel
  obtain ⟨⟨_, k'⟩, hs, rfl⟩ := Option.map_eq_some_iff.mp hroot
  exact ⟨k', hs, (image_translated_iff hs).mpr (by decide) 31 (by decide)⟩

/-- The first page of an image of two megabytes is mapped to where page 512 lies. -/
theorem long_image_aliased :
    ∃ k', mapKernel fourFrames 0x200000 0x400000 = some (0x1000, k') ∧
      (0x200000 : Word).toNat < (PHYSBASE_OFFSET + 0x400000).toNat ∧
      translate k' 1 kernmem = some 0x400 ∧ frameOf 0x200000 = 0x200 := by
  have hroot : (mapKernel fourFrames 0x200000 0x400000).map Prod.fst = some 0x1000 := by decide +kernel
  obtain ⟨⟨_, k'⟩, hs, rfl⟩ := Option.map_eq_some_iff.mp hroot
  have hfirst := image_translate hs (by decide : 0 < 512) (by decide)
  rw [show lastPage (kernelPages 0x200000 0x400000) 0 = 512 by decide,
    show frameOf (0x200000 + BitVec.ofNat 64 (512 * 0x1000)) = 0x400 by decide,
    show kernmem + BitVec.ofNat 64 (0 * 0x1000) = kernmem by decide] at hfirst
  exact ⟨k', hs, by decide, hfirst, by decide⟩

end KernelImage
