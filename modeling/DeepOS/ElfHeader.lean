import DeepOS.Elf

/-!
# The checks of the ELF parser

`Parse_ELF_Executable` compares the length of the file with the end of the program
header table, in 64 bits. The bytes that it reads are listed by their offsets.
-/
namespace ElfHeader

open CString PhyMem Process Elf

/-! ## What is read -/

def field (p : Word) (n : Nat) : List Word := (List.range n).map fun i => p + BitVec.ofNat 64 i

def compared : Nat → List Byte → List Byte → Nat
  | n + 1, a :: s, b :: t => if a ≠ b then 1 else if a = 0 then 1 else compared n s t + 1
  | _, _, _ => 0

def firstFour (data : Word → Byte) : List Byte := (List.range 4).map fun i => data (BitVec.ofNat 64 i)

def headerFields (p : Word) : List Word := field (p + 8) 8 ++ field (p + 16) 8 ++ field (p + 32) 8 ++ field (p + 40) 8

def headerAt (data : Word → Byte) (i : Nat) : Word := phoff data + BitVec.ofNat 64 (56 * i)

def reads (data : Word → Byte) (len : Word) : List Word :=
  if len < 64 then []
  else field 0 (compared 4 (firstFour data) magic) ++
    if strncmp 4 (firstFour data) magic ≠ 0 then []
    else field 56 2 ++
      if phnum data > EXE_MAX_SEGMENTS then []
      else field 32 8 ++
        if len < phoff data + BitVec.ofNat 64 (phnum data * 56) then []
        else field 24 8 ++ (List.range (phnum data)).flatMap fun i => headerFields (headerAt data i)

theorem compared_le (n : Nat) (s t : List Byte) : compared n s t ≤ n := by
  induction n generalizing s t with
  | zero => exact le_rfl
  | succ n ih =>
    cases s with
    | nil => exact Nat.zero_le _
    | cons a s =>
      cases t with
      | nil => exact Nat.zero_le _
      | cons b t =>
        rw [compared]
        split
        · omega
        · split
          · omega
          · exact Nat.succ_le_succ (ih s t)

/-- A field that does not wrap around lies between its first byte and its end. -/
theorem field_lt {p q : Word} {n : Nat} (hq : q ∈ field p n) (hp : p.toNat + n < 2 ^ 64) :
    q.toNat < p.toNat + n := by
  obtain ⟨i, hi, rfl⟩ := List.mem_map.mp hq
  rw [List.mem_range] at hi
  rw [BitVec.toNat_add, BitVec.toNat_ofNat]
  omega

theorem headerFields_lt {p q : Word} (hq : q ∈ headerFields p) (hp : p.toNat + 56 < 2 ^ 64) :
    q.toNat < p.toNat + 56 := by
  have hat : ∀ o : Nat, o + 8 ≤ 56 → q ∈ field (p + BitVec.ofNat 64 o) 8 → q.toNat < p.toNat + 56 := by
    intro o ho hq
    have ho' : (p + BitVec.ofNat 64 o).toNat = p.toNat + o := by
      rw [BitVec.toNat_add, BitVec.toNat_ofNat]
      omega
    have hlt := field_lt hq (by rw [ho']; omega)
    rw [ho'] at hlt
    omega
  simp only [headerFields, List.mem_append] at hq
  rcases hq with ((hq | hq) | hq) | hq
  · exact hat 8 (by decide) hq
  · exact hat 16 (by decide) hq
  · exact hat 32 (by decide) hq
  · exact hat 40 (by decide) hq

/-! ## Nothing else matters -/

theorem numberAt_congr {data data' : Word → Byte} (n : Nat) (p : Word)
    (h : ∀ q ∈ field p n, data' q = data q) : numberAt data' p n = numberAt data p n := by
  induction n generalizing p with
  | zero => rfl
  | succ n ih =>
    have hfirst : data' p = data p := h p (by
      refine List.mem_map.mpr ⟨0, List.mem_range.mpr n.succ_pos, ?_⟩
      exact BitVec.add_zero p)
    have hrest : ∀ q ∈ field (p + 1) n, data' q = data q := by
      intro q hq
      obtain ⟨i, hi, rfl⟩ := List.mem_map.mp hq
      refine h _ (List.mem_map.mpr ⟨i + 1, List.mem_range.mpr (Nat.succ_lt_succ (List.mem_range.mp hi)), ?_⟩)
      rw [BitVec.add_assoc, BitVec.ofNat_add, BitVec.add_comm (1 : Word)]
      rfl
    rw [numberAt, numberAt, hfirst, ih (p + 1) hrest]

theorem wordAt_congr {data data' : Word → Byte} {p : Word} (h : ∀ q ∈ field p 8, data' q = data q) :
    wordAt data' p = wordAt data p := by
  rw [wordAt, wordAt, numberAt_congr 8 p h]

theorem exeSegment_congr {data data' : Word → Byte} {p : Word} (h : ∀ q ∈ headerFields p, data' q = data q) :
    exeSegment (programHeaderAt data' p) = exeSegment (programHeaderAt data p) := by
  simp only [headerFields, List.mem_append] at h
  have hoffset := wordAt_congr fun q hq => h q (Or.inl (Or.inl (Or.inl hq)))
  have hvaddr := wordAt_congr fun q hq => h q (Or.inl (Or.inl (Or.inr hq)))
  have hfile := wordAt_congr fun q hq => h q (Or.inl (Or.inr hq))
  have hmem := wordAt_congr fun q hq => h q (Or.inr hq)
  simp only [exeSegment, programHeaderAt, hoffset, hvaddr, hfile, hmem]

/-- The comparison depends on the characters it looks at. -/
theorem strncmp_congr (n : Nat) : ∀ {s s' t : List Byte}, s'.length = s.length →
    s'.take (compared n s t) = s.take (compared n s t) →
    strncmp n s' t = strncmp n s t ∧ compared n s' t = compared n s t := by
  induction n with
  | zero => exact fun _ _ => ⟨rfl, rfl⟩
  | succ n ih =>
    intro s s' t hlen htake
    cases s with
    | nil =>
      obtain rfl := List.eq_nil_of_length_eq_zero hlen
      exact ⟨rfl, rfl⟩
    | cons a s =>
      cases s' with
      | nil => cases hlen
      | cons a' s' =>
        cases t with
        | nil => exact ⟨rfl, rfl⟩
        | cons b t =>
          have hpos : ∃ m, compared (n + 1) (a :: s) (b :: t) = m + 1 := by
            rw [compared]
            split
            · exact ⟨0, rfl⟩
            · split
              · exact ⟨0, rfl⟩
              · exact ⟨_, rfl⟩
          obtain ⟨m, hm⟩ := hpos
          rw [hm, List.take_succ_cons, List.take_succ_cons, List.cons.injEq] at htake
          obtain ⟨rfl, htake⟩ := htake
          rw [compared] at hm
          simp only [strncmp, compared]
          split
          · exact ⟨rfl, rfl⟩
          · rename_i hab
            rw [if_neg hab] at hm
            split
            · exact ⟨rfl, rfl⟩
            · rename_i ha
              rw [if_neg ha, Nat.add_right_cancel_iff] at hm
              rw [List.length_cons, List.length_cons, Nat.add_right_cancel_iff] at hlen
              subst hm
              obtain ⟨hcmp, hcount⟩ := ih hlen htake
              exact ⟨hcmp, congrArg (· + 1) hcount⟩

theorem firstFour_take (data : Word → Byte) {m : Nat} (hm : m ≤ 4) :
    (firstFour data).take m = (List.range m).map fun i => data (BitVec.ofNat 64 i) := by
  rw [firstFour, ← List.map_take, List.take_range, Nat.min_eq_left hm]

/-- What the parser does depends on the bytes that are listed and on no others. -/
theorem parse_congr {data data' : Word → Byte} {len : Word} (h : ∀ p ∈ reads data len, data' p = data p) :
    parseElfExecutable data' len = parseElfExecutable data len := by
  rw [parseElfExecutable, parseElfExecutable, ← firstFour, ← firstFour]
  rw [reads] at h
  by_cases hshort : len < 64
  · rw [if_pos (Or.inl hshort), if_pos (Or.inl hshort)]
  rw [if_neg hshort, List.forall_mem_append] at h
  obtain ⟨hmagic, h⟩ := h
  have hfour : (firstFour data').take (compared 4 (firstFour data) magic) =
      (firstFour data).take (compared 4 (firstFour data) magic) := by
    have hle := compared_le 4 (firstFour data) magic
    rw [firstFour_take data' hle, firstFour_take data hle]
    refine List.map_congr_left fun i hi => ?_
    have hread := hmagic (0 + BitVec.ofNat 64 i) (List.mem_map.mpr ⟨i, hi, rfl⟩)
    rwa [zero_add] at hread
  have hlength : (firstFour data').length = (firstFour data).length := rfl
  rw [(strncmp_congr 4 hlength hfour).1]
  by_cases hname : strncmp 4 (firstFour data) magic ≠ 0
  · rw [if_pos (Or.inr hname), if_pos (Or.inr hname)]
  rw [if_neg hname, List.forall_mem_append] at h
  obtain ⟨hcount, h⟩ := h
  have hphnum : phnum data' = phnum data := numberAt_congr 2 56 hcount
  rw [if_neg (not_or.mpr ⟨hshort, hname⟩), if_neg (not_or.mpr ⟨hshort, hname⟩), hphnum]
  by_cases hmany : phnum data > EXE_MAX_SEGMENTS
  · rw [if_pos hmany, if_pos hmany]
  rw [if_neg hmany, List.forall_mem_append] at h
  obtain ⟨hoff, h⟩ := h
  have hphoff : phoff data' = phoff data := wordAt_congr hoff
  rw [if_neg hmany, if_neg hmany, hphoff]
  by_cases hend : len < phoff data + BitVec.ofNat 64 (phnum data * 56)
  · rw [if_pos hend, if_pos hend]
  rw [if_neg hend, List.forall_mem_append] at h
  obtain ⟨hentry, hheaders⟩ := h
  have hsegments : (programHeaders data').map exeSegment = (programHeaders data).map exeSegment := by
    rw [programHeaders, programHeaders, hphnum, hphoff, List.map_map, List.map_map]
    refine List.map_congr_left fun i hi => exeSegment_congr fun q hq => ?_
    exact hheaders q (List.mem_flatMap.mpr ⟨i, hi, hq⟩)
  rw [if_neg hend, if_neg hend, hsegments, entry, entry, wordAt_congr hentry]

/-! ## The promise -/

/-- The program header table, counted without wrapping around, ends at or before `n`. -/
def TableWithin (data : Word → Byte) (n : Nat) : Prop := (phoff data).toNat + 56 * phnum data ≤ n

structure Validated (data : Word → Byte) (len : Word) (f : ExeFormat) : Prop where
  magic : firstFour data = Elf.magic
  table : TableWithin data len.toNat
  count : f.segmentList.length = phnum data ∧ phnum data ≤ 100
  segments : ∀ i < phnum data, f.segmentList[i]? =
    some (exeSegment (programHeaderAt data (BitVec.ofNat 64 ((phoff data).toNat + 56 * i))))

/-- A result of 0 keeps its promise, and no byte outside the file is read. -/
def Sufficient (data : Word → Byte) (len : Word) : Prop :=
  (∀ f, parseElfExecutable data len = some f → Validated data len f) ∧ ∀ p ∈ reads data len, p.toNat < len.toNat

/-- An executable with a table that wraps around, to an end within the file. -/
structure Wraps (data : Word → Byte) (len : Word) : Prop where
  header : 64 ≤ len.toNat
  magic : firstFour data = Elf.magic
  few : phnum data ≤ 100
  wraps : 2 ^ 64 ≤ (phoff data).toNat + 56 * phnum data
  within : TableWithin data (2 ^ 64 + len.toNat)

theorem strncmp_eq_zero (n : Nat) : ∀ {s t : List Byte}, s.length = n → t.length = n → (0 : Byte) ∉ t →
    (strncmp n s t = 0 ↔ s = t) := by
  induction n with
  | zero =>
    intro s t hs ht _
    obtain rfl := List.eq_nil_of_length_eq_zero hs
    obtain rfl := List.eq_nil_of_length_eq_zero ht
    exact ⟨fun _ => rfl, fun _ => rfl⟩
  | succ n ih =>
    intro s t hs ht h0
    cases s with
    | nil => cases hs
    | cons a s =>
      cases t with
      | nil => cases ht
      | cons b t =>
        rw [List.length_cons, Nat.add_right_cancel_iff] at hs ht
        rw [List.mem_cons, not_or] at h0
        rw [strncmp]
        by_cases hab : a = b
        · subst hab
          rw [if_neg (not_not.mpr rfl), if_neg (Ne.symm h0.1), ih hs ht h0.2, List.cons.injEq]
          exact (and_iff_right rfl).symm
        · rw [if_pos hab, List.cons.injEq]
          refine ⟨fun hcmp => ?_, fun heq => absurd heq.1 hab⟩
          split at hcmp
          · cases hcmp
          · cases hcmp

theorem strncmp_magic (data : Word → Byte) :
    strncmp 4 (firstFour data) magic = 0 ↔ firstFour data = magic :=
  strncmp_eq_zero 4 rfl rfl (by decide)

variable {data : Word → Byte} {len : Word}

theorem tableEnd_toNat (data : Word → Byte) : (phoff data + BitVec.ofNat 64 (phnum data * 56)).toNat =
    ((phoff data).toNat + 56 * phnum data) % 2 ^ 64 := by
  rw [BitVec.toNat_add, BitVec.toNat_ofNat, Nat.mul_comm, Nat.add_mod_mod]

/-- The checks, on files whose table does not wrap around. -/
theorem parse_accepts (hlen : 64 ≤ len.toNat) (hmagic : firstFour data = magic) (hfew : phnum data ≤ 100)
    (hend : ¬ len < phoff data + BitVec.ofNat 64 (phnum data * 56)) :
    parseElfExecutable data len = some ⟨(programHeaders data).map exeSegment, entry data⟩ := by
  have hshort : ¬ (len < 64 ∨ strncmp 4 (firstFour data) magic ≠ 0) := by
    rw [not_or, not_not, strncmp_magic, BitVec.lt_def]
    exact ⟨not_lt.mpr hlen, hmagic⟩
  rw [parseElfExecutable, ← firstFour, if_neg hshort, if_neg (Nat.not_lt.mpr hfew : ¬ phnum data > EXE_MAX_SEGMENTS), if_neg hend]

/-- What is known of a file that is accepted. -/
theorem parse_some {f : ExeFormat} (h : parseElfExecutable data len = some f) :
    64 ≤ len.toNat ∧ firstFour data = magic ∧ phnum data ≤ 100 ∧
      ¬ len < phoff data + BitVec.ofNat 64 (phnum data * 56) ∧
      f = ⟨(programHeaders data).map exeSegment, entry data⟩ := by
  rw [parseElfExecutable, ← firstFour] at h
  split at h
  · cases h
  · rename_i hshort
    rw [not_or, not_not, strncmp_magic, BitVec.lt_def] at hshort
    split at h
    · cases h
    · rename_i hfew
      split at h
      · cases h
      · rename_i hend
        exact ⟨not_lt.mp hshort.1, hshort.2, not_lt.mp hfew, hend, (Option.some.inj h).symm⟩

/-- Without wrapping, the last check is what it looks like. -/
theorem tableWithin_of_not_wraps (h : ¬ Wraps data len) (hlen : 64 ≤ len.toNat) (hmagic : firstFour data = magic)
    (hfew : phnum data ≤ 100) (hend : ¬ len < phoff data + BitVec.ofNat 64 (phnum data * 56)) :
    TableWithin data len.toNat := by
  rw [BitVec.lt_def, tableEnd_toNat] at hend
  have hoff := (phoff data).isLt
  by_contra hout
  rw [TableWithin] at hout
  refine h ⟨hlen, hmagic, hfew, ?_, ?_⟩
  · by_contra hlt
    rw [Nat.mod_eq_of_lt (not_le.mp hlt)] at hend
    omega
  · rw [TableWithin]
    omega

theorem validated_of_table {f : ExeFormat} (h : parseElfExecutable data len = some f)
    (htable : TableWithin data len.toNat) : Validated data len f := by
  obtain ⟨-, hmagic, hfew, -, rfl⟩ := parse_some h
  refine ⟨hmagic, htable, ⟨?_, hfew⟩, fun i hi => ?_⟩
  · rw [List.length_map, programHeaders, List.length_map, List.length_range]
  · have hphoff : (phoff data) + BitVec.ofNat 64 (56 * i) = BitVec.ofNat 64 ((phoff data).toNat + 56 * i) := by
      rw [BitVec.ofNat_add, BitVec.ofNat_toNat, BitVec.setWidth_eq]
    rw [programHeaders, List.map_map, List.getElem?_map, List.getElem?_range hi, Option.map_some,
      Function.comp_apply, hphoff]

theorem reads_inside (h : ¬ Wraps data len) : ∀ p ∈ reads data len, p.toNat < len.toNat := by
  intro p hp
  rw [reads] at hp
  split at hp
  · exact absurd hp List.not_mem_nil
  rename_i hshort
  have hlen : 64 ≤ len.toNat := by
    rw [BitVec.lt_def] at hshort
    exact not_lt.mp hshort
  -- the fields of the ELF header lie in its 64 bytes
  have hfield : ∀ (q : Word) (n : Nat), q.toNat + n ≤ 64 → p ∈ field q n → p.toNat < len.toNat := by
    intro q n hq hm
    have hlt := field_lt hm (by omega)
    omega
  rcases List.mem_append.mp hp with hp | hp
  · refine hfield 0 _ ?_ hp
    have hle := compared_le 4 (firstFour data) magic
    rw [show (0 : Word).toNat = 0 from rfl]
    omega
  split at hp
  · exact absurd hp List.not_mem_nil
  rename_i hname
  have hmagic : firstFour data = magic := (strncmp_magic data).mp (not_not.mp hname)
  rcases List.mem_append.mp hp with hp | hp
  · exact hfield 56 2 (by decide) hp
  split at hp
  · exact absurd hp List.not_mem_nil
  rename_i hfew
  rcases List.mem_append.mp hp with hp | hp
  · exact hfield 32 8 (by decide) hp
  split at hp
  · exact absurd hp List.not_mem_nil
  rename_i hend
  rcases List.mem_append.mp hp with hp | hp
  · exact hfield 24 8 (by decide) hp
  -- and the headers in the table
  obtain ⟨i, hi, hp⟩ := List.mem_flatMap.mp hp
  rw [List.mem_range] at hi
  have htable := tableWithin_of_not_wraps h hlen hmagic (not_lt.mp hfew) hend
  rw [TableWithin] at htable
  have hlt := len.isLt
  have hat : (headerAt data i).toNat = (phoff data).toNat + 56 * i := by
    rw [headerAt, BitVec.toNat_add, BitVec.toNat_ofNat]
    omega
  by_cases hroom : (headerAt data i).toNat + 56 < 2 ^ 64
  · have := headerFields_lt hp hroom
    omega
  · omega

/-- For every file and length, the checks are sufficient exactly when no table wraps
around to an end within the file. -/
theorem validation_sufficient_iff (data : Word → Byte) (len : Word) : Sufficient data len ↔ ¬ Wraps data len := by
  constructor
  · rintro ⟨hformat, -⟩ hwraps
    have hend : ¬ len < phoff data + BitVec.ofNat 64 (phnum data * 56) := by
      have hwithin := hwraps.within
      have hbig := hwraps.wraps
      have hfew := hwraps.few
      have hoff := (phoff data).isLt
      rw [TableWithin] at hwithin
      rw [BitVec.lt_def, tableEnd_toNat]
      omega
    have htable := (hformat _ (parse_accepts hwraps.header hwraps.magic hwraps.few hend)).table
    have hbig := hwraps.wraps
    have hlt := len.isLt
    rw [TableWithin] at htable
    omega
  · intro h
    refine ⟨fun f hf => validated_of_table hf ?_, reads_inside h⟩
    obtain ⟨hlen, hmagic, hfew, hend, -⟩ := parse_some hf
    exact tableWithin_of_not_wraps h hlen hmagic hfew hend

/-- An ELF header of 64 bytes that puts one program header 56 bytes below 2^64. -/
def wrappedFile : List Byte :=
  magic ++ List.replicate 28 0 ++ [0xC8] ++ List.replicate 7 0xFF ++ List.replicate 16 0 ++ [1] ++
    List.replicate 7 0

/-- The file is accepted, and its program header is read from outside. -/
theorem wrapped_table_accepted : ∃ f,
    parseElfExecutable (fun p => wrappedFile.getD p.toNat 0) 64 = some f ∧
      (∃ p ∈ reads (fun p => wrappedFile.getD p.toNat 0) 64, 64 ≤ p.toNat) ∧
      ¬ Sufficient (fun p => wrappedFile.getD p.toNat 0) 64 := by
  have hwraps : Wraps (fun p => wrappedFile.getD p.toNat 0) 64 :=
    ⟨by decide, by decide +kernel, by decide +kernel, by decide +kernel, by
      rw [TableWithin]
      decide +kernel⟩
  refine ⟨_, parse_accepts hwraps.header hwraps.magic hwraps.few (by decide +kernel), ?_, ?_⟩
  · exact ⟨0xFFFFFFFFFFFFFFD0, by decide +kernel, by decide⟩
  · exact fun h => (validation_sufficient_iff _ _).mp h hwraps

end ElfHeader
