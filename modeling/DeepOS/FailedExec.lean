import DeepOS.BlockPlaces
import DeepOS.TaskRecord

/-!
# A failed exec

`kexecvpe` fills the argument vectors of the task and cuts the `PATH` string of its
caller before it knows whether there is a file. It does not look at what the parser
said about the file.
-/
namespace FailedExec

open CString Strings PhyMem TaskTable PageTable AddressSpace TaskPages Tarfs
open PathSearch Elf BlockPlaces
open TaskRecord (layout fieldAt Field bytesOf vectorBytes TEMP_BUFFER ARGC ARGV ENVP VMA)
open Process (ExecCall modifyTask)
open VirtAlloc (window)

/-! ## The call -/

/-- The machine, the name of the running program, the record of its task in front of
`vma`, and the strings of the caller's environment array. -/
structure ExecState where
  kernel : Kernel
  programName : List Byte
  record : Nat → Byte
  envp : List (List Byte)

/-- The arguments of a call; `place` is where the environment array begins in
`current_task->envp`, if it does. -/
structure Call where
  filename : List Byte
  argc : BitVec 32
  argv : List (List Byte)
  place : Option Nat

/-- The call returns, or goes on to load the file that begins at `start`. -/
inductive Outcome where
  | returns (value : Int) (s : ExecState)
  | loads (start : Nat) (s : ExecState)

def blockSize (s : List Byte) : BitVec 32 := BitVec.ofNat 32 (s.length + 1)

def pathSizes (filename : List Byte) (toks : List (List Byte)) : List (BitVec 32) :=
  64 * 8 :: ((toks.filter fun tok => addSlash tok ≠ tok).map fun tok => blockSize (addSlash tok)) ++
    toks.map fun tok => blockSize (strcat (addSlash tok) filename)

def storeAt (record : Nat → Byte) (off : Nat) (bs : List Byte) (i : Nat) : Byte :=
  if off ≤ i ∧ i < off + bs.length then bs.getD (i - off) 0 else record i

def storeArgs (record : Nat → Byte) (c : Call) (argv envp : List Word) : Nat → Byte :=
  let record := storeAt record ARGC ((bytesOf (c.argc.setWidth 64)).take 4)
  let record := storeAt record ARGV (vectorBytes argv)
  let record := storeAt record ENVP (vectorBytes envp)
  storeAt record TEMP_BUFFER (c.filename ++ [0])

/-- Where the arguments and the name have to end: in front of the caller's array when it
lies in the record, and in front of `vma`. -/
def Call.limit (c : Call) : Nat := c.place.elim VMA fun d => min VMA (ENVP + 8 * d)

/-- The stores go over nothing that the call reads later. -/
def Call.Fits (c : Call) (envp : List (List Byte)) : Prop :=
  ARGV + 8 * (c.argv.length + 1) ≤ c.limit ∧ ENVP + 8 * (envp.length + 1) ≤ VMA ∧
    TEMP_BUFFER + c.filename.length + 1 ≤ c.limit

instance decidableFits (c : Call) (envp : List (List Byte)) : Decidable (c.Fits envp) :=
  inferInstanceAs (Decidable (_ ∧ _))

/-- `kexecvpe` up to the decision whether to load. Stores that go further have no result. -/
def kexecvpe (a : List Byte) (t : Slot) (s : ExecState) (c : Call) : Option Outcome :=
  if c.Fits s.envp then
    (copyBlocks t s.kernel (c.argv.map blockSize)).bind fun r =>
    (copyBlocks t r.2 (s.envp.map blockSize)).bind fun q =>
    let s := { s with record := storeArgs s.record c r.1 q.1, envp := copyEnv c.place s.envp }
    (getElfFile a c.filename).bind fun tar =>
      match tar with
      | some start => some (.loads start { s with kernel := q.2 })
      | none =>
        (pathTokens s.envp).bind fun p =>
        (copyBlocks t q.2 (pathSizes c.filename p.1)).bind fun b =>
        (searchPath a c.filename (p.1.map addSlash) none).map fun tar =>
          match tar with
          | some start => .loads start { s with kernel := b.2, envp := p.2 }
          | none => .returns (-1) { s with kernel := b.2, envp := p.2 }
  else none

def allSizes (c : Call) (envp toks : List (List Byte)) : List (BitVec 32) :=
  c.argv.map blockSize ++ envp.map blockSize ++ pathSizes c.filename toks

def recordAfter (s : ExecState) (c : Call) (ps : List Word) : Nat → Byte :=
  storeArgs s.record c (ps.take c.argv.length) ((ps.drop c.argv.length).take s.envp.length)

section

variable {R : Set Nat} {a : List Byte} {t : Slot} {s s' : ExecState} {c : Call}

structure Returned (a : List Byte) (t : Slot) (s : ExecState) (c : Call) (toks : List (List Byte)) (ps : List Word)
    (s' : ExecState) : Prop where
  fits : c.Fits s.envp
  direct : getElfFile a c.filename = some none
  tokens : pathTokens (copyEnv c.place s.envp) = some (toks, s'.envp)
  search : searchPath a c.filename (toks.map addSlash) none = some none
  blocks : copyBlocks t s.kernel (allSizes c s.envp toks) = some (ps, s'.kernel)
  record : s'.record = recordAfter s c ps
  programName : s'.programName = s.programName

theorem kexecvpe_returns (v : Int) : kexecvpe a t s c = some (.returns v s') ↔
    v = -1 ∧ ∃ toks ps, Returned a t s c toks ps s' := by
  constructor
  · intro h
    rw [kexecvpe] at h
    split at h
    · rename_i hfits
      simp only [Option.bind_eq_some_iff] at h
      obtain ⟨⟨as, k₁⟩, hargv, ⟨es, k₂⟩, henvp, tar, hdirect, h⟩ := h
      cases tar with
      | some start => cases h
      | none =>
        simp only [Option.bind_eq_some_iff, Option.map_eq_some_iff] at h
        obtain ⟨⟨toks, env⟩, htoks, ⟨bs, k₃⟩, hpath, tar, hsearch, h⟩ := h
        cases tar with
        | some start => cases h
        | none =>
          obtain ⟨rfl, rfl⟩ : v = -1 ∧ s' = ⟨k₃, s.programName, storeArgs s.record c as es, env⟩ := by
            simpa [eq_comm] using h
          have has : as.length = c.argv.length := by simpa using copyBlocks_length hargv
          have hes : es.length = s.envp.length := by simpa using copyBlocks_length henvp
          refine ⟨rfl, toks, as ++ es ++ bs, hfits, hdirect, htoks, hsearch, ?_, ?_, rfl⟩
          · rw [allSizes, copyBlocks_append, copyBlocks_append, hargv]
            simp only [Option.bind_some, henvp, Option.map_some, hpath]
          · rw [recordAfter, List.append_assoc, List.take_left' has, List.drop_left' has, List.take_left' hes]
    · cases h
  · rintro ⟨rfl, toks, ps, hfits, hdirect, htoks, hsearch, hblocks, hrecord, hname⟩
    rw [allSizes, copyBlocks_append, copyBlocks_append] at hblocks
    simp only [Option.bind_eq_some_iff, Option.map_eq_some_iff, Prod.mk.injEq] at hblocks
    obtain ⟨⟨aes, k₂⟩, ⟨⟨as, k₁⟩, hargv, ⟨es, k₂'⟩, henvp, rfl, rfl⟩, ⟨bs, k₃⟩, hpath, rfl, rfl⟩ := hblocks
    have has : as.length = c.argv.length := by simpa using copyBlocks_length hargv
    have hes : es.length = s.envp.length := by simpa using copyBlocks_length henvp
    rw [recordAfter, List.append_assoc, List.take_left' has, List.drop_left' has, List.take_left' hes] at hrecord
    rw [kexecvpe, if_pos hfits, hargv, Option.bind_some, henvp, Option.bind_some, hdirect, Option.bind_some]
    simp only [htoks, Option.bind_some, hpath, hsearch, Option.map_some]
    rw [← hrecord, ← hname]

/-- While frames are left, a call that returns is one of `Process` without a file to load. -/
theorem kexecvpe_process {v : Int} (h : kexecvpe a t s c = some (.returns v s')) :
    ∃ call : ExecCall, call.image = none ∧ ∀ k, Process.kexecvpe s.kernel t call = some k → k = s'.kernel := by
  obtain ⟨-, toks, ps, hret⟩ := (kexecvpe_returns v).mp h
  let call : ExecCall :=
    { argv := c.argv.map blockSize, envp := s.envp.map blockSize, direct := none,
      joined := (pathSizes c.filename toks).tail, path := [] }
  have hsizes : call.sizes = allSizes c s.envp toks := rfl
  refine ⟨call, rfl, fun k hk => ?_⟩
  rw [Process.kexecvpe, hsizes] at hk
  cases hcopy : Process.copyStrings s.kernel t (allSizes c s.envp toks) with
  | none =>
    rw [hcopy] at hk
    cases hk
  | some k₁ =>
    rw [hcopy] at hk
    obtain rfl : k₁ = k := Option.some.inj hk
    exact copyBlocks_strings hret.blocks hcopy

/-! ## What a failed call leaves -/

def Listed (off : Nat) : Prop :=
  (fieldAt layout off).map Prod.fst ∈ [some Field.argc, some Field.argv, some Field.envp]

instance decidableListed (off : Nat) : Decidable (Listed off) := inferInstanceAs (Decidable (_ ∈ _))

structure Unchanged (t : Slot) (s s' : ExecState) : Prop where
  arguments : ∀ off, Listed off → s'.record off = s.record off
  programName : s'.programName = s.programName
  vma : (s'.kernel.tasks t).vma = (s.kernel.tasks t).vma
  pointers : SameStacks (s.kernel.tasks t) (s'.kernel.tasks t)
  tables : ∀ v, translate s'.kernel (frameAt (s.kernel.tasks t).pml4e) v =
    translate s.kernel (frameAt (s.kernel.tasks t).pml4e) v
  environment : s'.envp = s.envp

/-- A call that finds no file, or one that the parser rejects, returns -1 and leaves
everything as it was. -/
def FailsCleanly (a : List Byte) (mem : Word → Byte) (base : Word) (t : Slot) (s : ExecState) (c : Call) : Prop :=
  (∀ start, Loads a c.filename c.place s.envp start → ¬ Accepted mem (base + BitVec.ofNat 64 start)) →
    ∃ s', kexecvpe a t s c = some (.returns (-1) s') ∧ Unchanged t s s'

structure Absent (A : Archive) (filename : List Byte) (envp : List (List Byte)) : Prop where
  name : filename.tail ≠ []
  direct : ∀ e ∈ A.entries, e.name ≠ filename.tail
  path : ∀ v, (pathValues envp).getLast? = some v → ∀ e ∈ A.entries, e.name ≠ target filename v

/-- The call writes into the fields what they hold, `kmalloc` refuses none of its blocks,
and no slot of the `vma` table is filled. -/
structure Served (t : Slot) (s : ExecState) (c : Call) : Prop where
  fits : c.Fits s.envp
  placed : ∃ ps, Placed (heapView s.kernel t) (allSizes c s.envp (pathValues s.envp)) ps ∧
    ∀ off, Listed off → recordAfter s c ps off = s.record off
  room : Room (s.kernel.tasks t).curPtr (s.kernel.tasks t).heapEnd
    (allSizes c s.envp (pathValues s.envp)) ∨ Full (s.kernel.tasks t).vma

/-- Nothing is found, no string of the environment is lost or cut, and the fields already
hold what is written. -/
structure Harmless (A : Archive) (t : Slot) (s : ExecState) (c : Call) : Prop where
  absent : Absent A c.filename s.envp
  keeps : copyEnv c.place s.envp = s.envp
  few : (pathValues s.envp).length < 64
  whole : ∀ v ∈ pathValues s.envp, Whole v
  served : Served t s c

/-- The two lookups of a call without a file. -/
theorem absent_iff (A : Archive) (filename : List Byte) (envp : List (List Byte)) :
    Absent A filename envp ↔ getElfFile A.bytes filename = some none ∧
      searchPath A.bytes filename ((pathValues envp).map addSlash) none = some none := by
  have hlast : filename ≠ [] →
      (searchPath A.bytes filename ((pathValues envp).map addSlash) none = some none ↔
        ∀ v, (pathValues envp).getLast? = some v → ∀ e ∈ A.entries, e.name ≠ target filename v) := by
    intro hne
    rw [searchPath_dirs A hne]
    cases (pathValues envp).getLast? with
    | none => simp
    | some v => simp [A.locate_eq_none]
  have hdirect : filename.tail ≠ [] → (getElfFile A.bytes filename = some none ↔
      ∀ e ∈ A.entries, e.name ≠ filename.tail) := by
    intro hne
    cases filename with
    | nil => exact absurd rfl hne
    | cons c name =>
      rw [List.tail_cons] at hne ⊢
      rw [getElfFile, A.getElfFileWalk_bytes c hne, Option.map_some, Option.some.injEq]
      exact A.locate_eq_none name
  constructor
  · rintro ⟨hname, hdir, hpath⟩
    have hne : filename ≠ [] := by
      rintro rfl
      exact hname rfl
    exact ⟨(hdirect hname).mpr hdir, (hlast hne).mpr hpath⟩
  · rintro ⟨hdir, hsearch⟩
    have hname := tail_ne_nil_of_direct hdir
    exact ⟨hname, (hdirect hname).mp hdir, (hlast (ne_nil_of_direct hdir)).mp hsearch⟩

theorem getPathLoop_length {envp envp' toks : List (List Byte)} {ct : Nat}
    (h : getPathLoop envp ct = some (toks, envp')) : envp'.length = envp.length := by
  induction envp generalizing ct toks envp' with
  | nil =>
    obtain ⟨-, rfl⟩ := Prod.mk.inj (Option.some.inj h)
    rfl
  | cons e envp ih =>
    rw [getPathLoop] at h
    split at h
    · cases hfirst : strtok (some (e.drop 5)) [59] ⟨[], 0⟩ with
      | mk tok k =>
        rw [hfirst] at h
        cases tok with
        | none => cases h
        | some tok =>
          obtain ⟨⟨more, rest⟩, hloop, he⟩ := Option.map_eq_some_iff.mp h
          obtain ⟨-, rfl⟩ := Prod.mk.inj he
          rw [List.length_cons, List.length_cons, ih hloop]
    · obtain ⟨⟨more, rest⟩, hloop, he⟩ := Option.map_eq_some_iff.mp h
      obtain ⟨-, rfl⟩ := Prod.mk.inj he
      rw [List.length_cons, List.length_cons, ih hloop]

/-- An environment that stays through the whole call has stayed in the copy loop. -/
theorem copyEnv_of_tokens {place : Option Nat} {envp toks : List (List Byte)}
    (h : pathTokens (copyEnv place envp) = some (toks, envp)) : copyEnv place envp = envp := by
  rw [pathTokens, Option.filter_eq_some_iff] at h
  have hloop := h.1
  cases place with
  | none => rfl
  | some d =>
    rcases Nat.eq_zero_or_pos d with rfl | hd
    · rw [getPathLoop_other] at hloop
      · exact (Prod.mk.inj (Option.some.inj hloop)).2
      · rw [copyEnv_self]
        intro e he
        obtain ⟨-, -, rfl⟩ := List.mem_map.mp he
        decide
    · rw [copyEnv_shift hd] at hloop ⊢
      split
      · rfl
      · rename_i hlong
        have hlen := getPathLoop_length hloop
        rw [if_neg hlong, List.length_drop] at hlen
        omega

end

/-- A call fails cleanly exactly when it finds a file that the parser accepts, or
nothing is found and the call has nothing to write. -/
theorem failed_exec_iff {R : Set Nat} (A : Archive) (mem : Word → Byte) (base : Word) (t : Slot) (s : ExecState)
    (c : Call) (hk : Running R t s.kernel) (hroot : frameAt (s.kernel.tasks t).pml4e ∈ R)
    (hstr : ∀ e ∈ s.envp, IsStr e) :
    FailsCleanly A.bytes mem base t s c ↔
      (∃ start, Loads A.bytes c.filename c.place s.envp start ∧ Accepted mem (base + BitVec.ofNat 64 start)) ∨
        Harmless A t s c := by
  constructor
  · intro h
    by_cases hacc : ∃ start, Loads A.bytes c.filename c.place s.envp start ∧
        Accepted mem (base + BitVec.ofNat 64 start)
    · exact Or.inl hacc
    · obtain ⟨s', hcall, hsame⟩ := h fun start hl ha => hacc ⟨start, hl, ha⟩
      obtain ⟨-, toks, ps, hret⟩ := (kexecvpe_returns (-1)).mp hcall
      have htoks := hret.tokens
      rw [hsame.environment] at htoks
      have hkeeps := copyEnv_of_tokens htoks
      rw [hkeeps, pathTokens_same s.envp hstr] at htoks
      obtain ⟨rfl, hfew, hwhole⟩ := htoks
      refine Or.inr ⟨(absent_iff A c.filename s.envp).mpr ⟨hret.direct, hret.search⟩, hkeeps, hfew, hwhole,
        hret.fits, ⟨ps, (copyBlocks_iff hk _ ps).mp ⟨s'.kernel, hret.blocks⟩, fun off hoff => ?_⟩, ?_⟩
      · rw [← hret.record]
        exact hsame.arguments off hoff
      · exact (copyBlocks_vma hk hret.blocks).mp hsame.vma
  · rintro (⟨start, hl, ha⟩ | ⟨habsent, hkeeps, hfew, hwhole, hserved⟩) hfail
    · exact absurd ha (hfail start hl)
    · obtain ⟨hfits, ⟨ps, hplaced, hrecord⟩, hroom⟩ := hserved
      obtain ⟨k', hblocks⟩ := (copyBlocks_iff hk _ ps).mpr hplaced
      obtain ⟨hdirect, hsearch⟩ := (absent_iff A c.filename s.envp).mp habsent
      have htoks := (pathTokens_same s.envp hstr (pathValues s.envp)).mpr ⟨rfl, hfew, hwhole⟩
      have hkept := copyBlocks_kept hk hblocks
      let s' : ExecState := { s with kernel := k', record := recordAfter s c ps }
      have hcall : kexecvpe A.bytes t s c = some (.returns (-1) s') :=
        (kexecvpe_returns (-1)).mpr ⟨rfl, pathValues s.envp, ps, hfits, hdirect, by rw [hkeeps]; exact htoks,
          hsearch, hblocks, rfl, rfl⟩
      refine ⟨s', hcall, hrecord, rfl, ?_, hkept.pointers, fun v => ?_, rfl⟩
      · exact (copyBlocks_vma hk hblocks).mpr hroom
      · exact translate_congr (hkept.walks _ hroot v)

/-- The small machine runs task 0, which has a heap page and was called without arguments. -/
def idleState : ExecState where
  kernel := { smallMachine with
    tasks := fun _ => { TaskMem.zero with pml4e := window 1, curPtr := window 8, heapEnd := window 8 + 4095 }
    currentTask := some 0 }
  programName := []
  record := fun _ => 0
  envp := []

theorem idle_running : Running {1} 0 idleState.kernel where
  sound := by
    have hev : Evolves {1} {1} smallMachine idleState.kernel := small_sound.evolves_same rfl rfl
    exact hev.sound
  root := rfl
  zero := small_walk (by decide)
  current := rfl

theorem nothing_found (start : Nat) : ¬ Loads oneFile.bytes [47, 98] none [] start := by
  rintro ⟨envp', h⟩
  have hfind : (findExecutable oneFile.bytes [47, 98] none []).map Prod.fst = some none := by decide +kernel
  rw [h] at hfind
  cases hfind

theorem storeAt_zeros {record : Nat → Byte} (h : ∀ i, record i = 0) (off : Nat) {bs : List Byte} (hbs : ∀ b ∈ bs, b = 0)
    (i : Nat) : storeAt record off bs i = 0 := by
  rw [storeAt]
  split
  · rename_i hin
    rw [List.getD_eq_getElem _ _ (by omega)]
    exact hbs _ (List.getElem_mem _)
  · exact h i

/-- A call without arguments for a file that is not there fails cleanly. -/
theorem failed_exec_iff_no_arguments :
    FailsCleanly oneFile.bytes (fun _ => 0) 0 0 idleState ⟨[47, 98], 0, [], none⟩ := by
  refine (failed_exec_iff oneFile (fun _ => 0) 0 0 idleState ⟨[47, 98], 0, [], none⟩ idle_running rfl ?_).mpr
    (Or.inr ⟨⟨by decide, by decide, ?_⟩, rfl, by decide, ?_, by decide, ⟨[window 8], ?_, ?_⟩, ?_⟩)
  · exact fun e he => absurd he List.not_mem_nil
  · intro v hv
    cases hv
  · exact fun v hv => absurd hv List.not_mem_nil
  · exact .here (by decide) (.nil _)
  · intro off hoff
    have hzero : ∀ i, storeAt (storeAt (storeAt (fun _ => 0) ARGC ((bytesOf 0).take 4)) ARGV (vectorBytes [])) ENVP
        (vectorBytes []) i = 0 :=
      storeAt_zeros (storeAt_zeros (storeAt_zeros (fun _ => rfl) _ (by decide)) _ (by decide)) _ (by decide)
    by_cases hname : off < 3
    · revert hoff
      interval_cases off
      all_goals decide
    · have hout : ¬ (TEMP_BUFFER ≤ off ∧ off < TEMP_BUFFER + ([47, 98] ++ [0] : List Byte).length) :=
        fun hin => hname hin.2
      exact (if_neg hout).trans (hzero off)
  · exact Or.inl ⟨by decide, trivial⟩

/-- With one argument the same call leaves another `argc`. -/
theorem failed_exec_overwrites : (∀ start, ¬ Loads oneFile.bytes [47, 98] none idleState.envp start) ∧
    ¬ FailsCleanly oneFile.bytes (fun _ => 0) 0 0 idleState ⟨[47, 98], 1, [[98]], none⟩ := by
  refine ⟨nothing_found, fun h => ?_⟩
  obtain ⟨s', hcall, hsame⟩ := h fun start hl _ => nothing_found start hl
  obtain ⟨-, toks, ps, hret⟩ := (kexecvpe_returns (-1)).mp hcall
  have hargc := hsame.arguments ARGC (by decide)
  rw [hret.record] at hargc
  -- the other stores begin further on, and the name ends before
  have hone : recordAfter idleState ⟨[47, 98], 1, [[98]], none⟩ ps ARGC = 1 := by
    simp [recordAfter, storeArgs, storeAt, ARGC, ARGV, ENVP, TEMP_BUFFER, bytesOf]
  rw [hone] at hargc
  exact absurd hargc (by decide)

end FailedExec
