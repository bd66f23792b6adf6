import DeepOS.FileTable

/-!
# Reading a file

`sys_read` does not look at the size of the file: it copies up to the first zero
byte, and always stores a terminator behind what it has copied. It finds the
record of a descriptor below 10 by searching, and otherwise uses record 10.
-/
namespace FileRead

open TaskTable CString Strings Tarfs FileTable

def Loaded (A : Archive) (base : Nat) (mem : Nat → Byte) : Prop :=
  ∀ k (hk : k < A.bytes.length), mem (base + k) = A.bytes.get ⟨k, hk⟩

/-- Calls of task `t` on `fd`, each with its count and its result, between opens by
any task and reads of other descriptors. Every call meets the condition `C`. -/
inductive Session (a : List Byte) (base : Nat) (mem : Nat → Byte) (C : Files → Op → Prop) (t : Slot)
    (fd : Fin 100) (s₀ : Files) : List (Int × ReadResult) → Files → Prop
  | start : Session a base mem C t fd s₀ [] s₀
  | read {outs : List (Int × ReadResult)} {s : Files} {nBytes : Int}
      (h : Session a base mem C t fd s₀ outs s) (hn : 0 < nBytes) (hc : C s (.reads t fd nBytes)) :
      Session a base mem C t fd s₀ (outs ++ [(nBytes, (sysRead mem s t fd nBytes).1)])
        (sysRead mem s t fd nBytes).2
  | other {outs : List (Int × ReadResult)} {s : Files} {u : Slot} {f : Fin 100} {nBytes : Int}
      (h : Session a base mem C t fd s₀ outs s) (hf : f ≠ fd) (hc : C s (.reads u f nBytes)) :
      Session a base mem C t fd s₀ outs (sysRead mem s u f nBytes).2
  | opens {outs : List (Int × ReadResult)} {s s' : Files} {u : Slot} {fname : List Byte}
      {r : Option (Fin 100)} (h : Session a base mem C t fd s₀ outs s) (hc : C s (.opens u fname))
      (ho : sysOpen a base s u fname = some (r, s')) : Session a base mem C t fd s₀ outs s'

def returned (outs : List (Int × ReadResult)) : List Byte := outs.flatMap fun o => o.2.returned

structure ReadsFile (contents : List Byte) (outs : List (Int × ReadResult)) : Prop where
  fits : ∀ o ∈ outs, (o.2.buffer.length : Int) ≤ o.1
  order : returned outs <+: contents
  ends : ∀ k (hk : k < outs.length), (outs.get ⟨k, hk⟩).2.numBytesRead = 0 →
    (returned (outs.take k)).length = contents.length

/-- The entry has no zero byte and a zero byte stands behind it: padding, or the
end of the archive. -/
structure Plain (A : Archive) (i : Nat) (hi : i < A.entries.length) : Prop where
  noZero : IsStr (A.entries.get ⟨i, hi⟩).contents
  padded : (A.entries.get ⟨i, hi⟩).contents.length % 512 ≠ 0 ∨ i + 1 = A.entries.length

def left (s : Files) (fd : Fin 100) : Int :=
  (s.fdArr fd).start + (s.fdArr fd).fileSize - (s.fdArr fd).curPtr

/-- A read asks for more than is left, so that there is room for the terminator,
or nothing is left. A read of another descriptor does not fall back on record 10
when that is the record of `fd`. -/
def Meets (fd : Fin 100) (s : Files) : Op → Prop
  | .reads u f nBytes =>
    if f = fd then left s fd < nBytes ∨ left s fd = 0
    else fd = 10 → s.openFiles u f = true → f.val < 10 ∧ f ≠ 1 ∧ f ≠ 2
  | _ => True

/-! ## The record that is used -/

theorem mem_firstTen : ∀ i : Fin 100, i ∈ (List.finRange 100).take 10 ↔ i.val < 10 := by decide

theorem search_found {s : Files} {fd i : Fin 100} (h : searchRecord s fd = some i) :
    (s.fdArr i).fd = fd := by
  simpa using List.find?_some h

section

variable {s : Files} (h : Records s)

include h

theorem search_own {fd : Fin 100} (hused : (s.fdArr fd).fd = fd) (hpos : 3 ≤ fd.val)
    (hlow : fd.val < 10) : searchRecord s fd = some fd := by
  cases hs : searchRecord s fd with
  | none =>
    have := List.find?_eq_none.mp hs fd ((mem_firstTen fd).mpr hlow)
    exact absurd (by simpa using hused) this
  | some i =>
    have hi := search_found hs
    rcases h.own i with hown | hown
    · rw [← hown, hi]
    · rw [hown] at hi
      rw [← hi] at hpos
      exact absurd hpos (by decide)

theorem search_ten : searchRecord s 10 = none := by
  cases hs : searchRecord s 10 with
  | none => rfl
  | some i =>
    have hlow := (mem_firstTen i).mp (List.mem_of_find?_eq_some hs)
    have hi := search_found hs
    rcases h.own i with hown | hown
    · rw [← hown, hi] at hlow
      exact absurd hlow (by decide)
    · rw [hown] at hi
      exact absurd hi (by decide)

/-- A read of another open descriptor uses another record. -/
theorem search_other {fd f i : Fin 100} {u : Slot} (hused : (s.fdArr fd).fd = fd) (hf : f ≠ fd)
    (hopen : s.openFiles u f = true) (hfd : fd.val ≤ 10)
    (hten : fd = 10 → f.val < 10 ∧ f ≠ 1 ∧ f ≠ 2)
    (hi : searchRecord s f = some i ∨ searchRecord s f = none ∧ i = 10) : i ≠ fd := by
  rcases hi with hi | ⟨hnone, rfl⟩
  · rintro rfl
    exact hf ((search_found hi).symm.trans hused)
  · rintro rfl
    obtain ⟨hlow, hone, htwo⟩ := hten rfl
    have hrec : (s.fdArr f).fd = f := by
      by_cases hpos : 3 ≤ f.val
      · exact h.used u f hpos hopen
      · have hzero : f = 0 := by
          have h1 : f.val ≠ 1 := fun hv => hone (Fin.ext hv)
          have h2 : f.val ≠ 2 := fun hv => htwo (Fin.ext hv)
          exact Fin.ext (by simp; omega)
        subst hzero
        exact (h.own 0).elim id id
    have := List.find?_eq_none.mp hnone f ((mem_firstTen f).mpr hlow)
    exact absurd (by simpa using hrec) this

end

/-! ## One call -/

/-- The copying loop on bytes `l` without a zero that are followed by a zero. -/
theorem readLoop_spec (mem : Nat → Byte) (n : Nat) : ∀ (r : FdRecord) (l : List Byte), IsStr l →
    (∀ k (hk : k < l.length), mem (r.curPtr + k) = l.get ⟨k, hk⟩) → mem (r.curPtr + l.length) = 0 →
    ∃ eof, readLoop mem n r =
        (l.take n, { r with curPtr := r.curPtr + (l.take n).length, eof := eof }) ∧
      (eof = true → r.eof = true ∨ l.length ≤ n) := by
  induction n with
  | zero => exact fun r l _ _ _ => ⟨r.eof, rfl, Or.inl⟩
  | succ n ih =>
    intro r l hl hmem hend
    cases l with
    | nil =>
      refine ⟨r.eof, ?_, Or.inl⟩
      have hz : mem r.curPtr = 0 := hend
      rw [readLoop, if_neg (by simp [hz])]
      rfl
    | cons c l =>
      have hc : mem r.curPtr = c := hmem 0 (by simp)
      have hne : c ≠ 0 := hl c List.mem_cons_self
      have hl' : IsStr l := fun x hx => hl x (List.mem_cons_of_mem c hx)
      have hmem' : ∀ k (hk : k < l.length), mem (r.curPtr + 1 + k) = l.get ⟨k, hk⟩ := by
        intro k hk
        have := hmem (k + 1) (by simpa using hk)
        rwa [show r.curPtr + (k + 1) = r.curPtr + 1 + k by omega] at this
      have hend' : mem (r.curPtr + 1 + l.length) = 0 := by
        rwa [List.length_cons, show r.curPtr + (l.length + 1) = r.curPtr + 1 + l.length by omega] at hend
      obtain ⟨eof, hloop, heof⟩ := ih
        { r with curPtr := r.curPtr + 1, eof := if mem (r.curPtr + 1) = 0 then true else r.eof }
        l hl' hmem' hend'
      refine ⟨eof, ?_, ?_⟩
      · rw [readLoop, if_pos (by rwa [hc])]
        simp only [hloop, hc, List.take_succ_cons, List.length_cons, Nat.add_assoc, Nat.add_comm 1]
      · intro he
        rcases heof he with hmark | hlen
        · by_cases hz : mem (r.curPtr + 1) = 0
          · cases l with
            | nil => exact Or.inr (by simp)
            | cons x l =>
              have hx : mem (r.curPtr + 1) = x := hmem' 0 (by simp)
              exact absurd (hx.symm.trans hz) (hl' x List.mem_cons_self)
          · left
            rwa [if_neg hz] at hmark
        · right
          rw [List.length_cons]
          omega

theorem copied_returned (bytes : List Byte) : (copied bytes).returned = bytes := by
  rw [ReadResult.returned, copied]
  split_ifs with h
  · simp [h]
  · simp

/-! ## The state of one file -/

/-- Of the file that stands at `p`, the first `done` bytes have been read through `fd`. -/
structure Progress (s : Files) (t : Slot) (fd : Fin 100) (p : Nat) (contents : List Byte)
    (done : Nat) : Prop where
  records : Records s
  alloc : s.fdAllocArray fd = true
  flag : s.openFiles t fd = true
  record : ∃ eof, s.fdArr fd = ⟨fd, p, p + done, contents.length, eof⟩ ∧
    (eof = true → done = contents.length)
  le : done ≤ contents.length

section

variable {s : Files} {t : Slot} {fd : Fin 100} {p done : Nat} {contents : List Byte}
  {mem : Nat → Byte}

theorem Progress.left_eq (h : Progress s t fd p contents done) :
    left s fd = contents.length - done := by
  obtain ⟨eof, hrec, -⟩ := h.record
  simp only [left, hrec]
  omega

/-- The next bytes are copied, as many as are asked for and are there. -/
theorem Progress.readRecord (h : Progress s t fd p contents done) (hstr : IsStr contents)
    (hmem : ∀ k (hk : k < contents.length), mem (p + k) = contents.get ⟨k, hk⟩)
    (hend : mem (p + contents.length) = 0) (nBytes : Int) :
    (readRecord mem s fd nBytes).1 = copied ((contents.drop done).take nBytes.toNat) ∧
      Progress (FileTable.readRecord mem s fd nBytes).2 t fd p contents
        (done + ((contents.drop done).take nBytes.toNat).length) := by
  obtain ⟨eof, hrec, heof⟩ := h.record
  have hle := h.le
  have hlen : (contents.drop done).length = contents.length - done := List.length_drop
  obtain ⟨eof', hloop, heof'⟩ := readLoop_spec mem nBytes.toNat (s.fdArr fd) (contents.drop done)
    (fun c hc => hstr c (List.mem_of_mem_drop hc))
    (by
      intro k hk
      have := hmem (done + k) (by omega)
      rw [hrec]
      simpa [Nat.add_assoc] using this)
    (by
      rw [hrec, hlen]
      simpa [show p + done + (contents.length - done) = p + contents.length by omega] using hend)
  have hresult : FileTable.readRecord mem s fd nBytes =
      (copied ((contents.drop done).take nBytes.toNat),
        { s with fdArr := Function.update s.fdArr fd
                  ⟨fd, p, p + done + ((contents.drop done).take nBytes.toNat).length,
                    contents.length, eof'⟩ }) := by
    simp only [FileTable.readRecord, hloop]
    rw [hrec]
  rw [hresult]
  refine ⟨rfl, ⟨?_, ?_⟩, h.alloc, h.flag, ⟨eof', ?_, ?_⟩, ?_⟩
  · intro j
    by_cases hj : j = fd
    · subst hj
      simp
    · simpa [hj] using h.records.own j
  · intro u j hj hopen
    by_cases hjf : j = fd
    · subst hjf
      simp
    · simpa [hjf] using h.records.used u j hj hopen
  · simp [Nat.add_assoc]
  · intro he
    rcases heof' he with hmark | hlong
    · rw [hrec] at hmark
      have := heof hmark
      rw [List.length_take, hlen]
      omega
    · rw [List.length_take, hlen]
      omega
  · rw [List.length_take, hlen]
    omega

theorem Progress.sysRead (h : Progress s t fd p contents done) (hpos : 3 ≤ fd.val) (hfd : fd.val ≤ 10)
    (hstr : IsStr contents) (hmem : ∀ k (hk : k < contents.length), mem (p + k) = contents.get ⟨k, hk⟩)
    (hend : mem (p + contents.length) = 0) (nBytes : Int) :
    (FileTable.sysRead mem s t fd nBytes).1 = copied ((contents.drop done).take nBytes.toNat) ∧
      Progress (FileTable.sysRead mem s t fd nBytes).2 t fd p contents
        (done + ((contents.drop done).take nBytes.toNat).length) := by
  have hread := h.readRecord hstr hmem hend nBytes
  obtain ⟨eof, hrec, heof⟩ := h.record
  by_cases hten : fd = 10
  · subst hten
    rw [FileTable.sysRead, h.flag, search_ten h.records]
    exact hread
  · have hlow : fd.val < 10 := by
      have : fd.val ≠ 10 := fun hv => hten (Fin.ext hv)
      omega
    rw [FileTable.sysRead, h.flag, search_own h.records (by rw [hrec]) hpos hlow]
    by_cases hmark : (s.fdArr fd).eof
    · have hdone : done = contents.length := heof (by simpa [hrec] using hmark)
      simp only [hmark, Bool.not_true, Bool.false_eq_true, if_false, if_true]
      rw [hdone, List.drop_length, List.take_nil]
      exact ⟨rfl, hdone ▸ h⟩
    · simp only [hmark, Bool.not_true, Bool.false_eq_true, if_false]
      exact hread

/-- A read of another descriptor leaves the file alone. -/
theorem Progress.other (h : Progress s t fd p contents done) (hfd : fd.val ≤ 10) {u : Slot}
    {f : Fin 100} (hf : f ≠ fd) (nBytes : Int)
    (hten : fd = 10 → s.openFiles u f = true → f.val < 10 ∧ f ≠ 1 ∧ f ≠ 2) :
    Progress (FileTable.sysRead mem s u f nBytes).2 t fd p contents done := by
  obtain ⟨eof, hrec, heof⟩ := h.record
  have hrecords : Records (FileTable.sysRead mem s u f nBytes).2 :=
    @step_records [] 0 mem _ _ (.reads u f nBytes) h.records rfl
  obtain ⟨halloc, hflags⟩ := sysRead_flags mem s u f nBytes
  refine ⟨hrecords, by rw [halloc]; exact h.alloc, by rw [hflags]; exact h.flag, ?_, h.le⟩
  refine ⟨eof, ?_, heof⟩
  rcases sysRead_cases mem s u f nBytes with hsame | ⟨i, hi, hopen, hread⟩
  · rw [hsame, hrec]
  · have hne := search_other h.records (by rw [hrec]) hf hopen hfd (fun he => hten he hopen) hi
    rw [hread, ← hrec]
    exact Function.update_of_ne hne.symm _ _

/-- Opening a file gives another descriptor. -/
theorem Progress.opens (h : Progress s t fd p contents done) {a : List Byte} {base : Nat} {u : Slot}
    {fname : List Byte} {r : Option (Fin 100)} {s' : Files}
    (ho : sysOpen a base s u fname = some (r, s')) : Progress s' t fd p contents done := by
  obtain ⟨eof, hrec, heof⟩ := h.record
  rcases sysOpen_cases ho with ⟨-, rfl⟩ | ⟨w, start, i, -, -, hi, -, rfl⟩
  · exact h
  · have hne : fd ≠ i := by
      rintro rfl
      exact absurd (freeFd_spec hi).2 (by simp [h.alloc])
    refine ⟨openFd_records h.records, ?_, ?_, ⟨eof, ?_, heof⟩, h.le⟩
    · simpa [openFd, hne] using h.alloc
    · change setFlag s.openFiles u i true t fd = true
      rw [setFlag_apply]
      split
      · rfl
      · exact h.flag
    · simpa [openFd, hne] using hrec

end

/-! ## From the call of `sys_open` on -/

section

variable {A : Archive} {base : Nat} {mem : Nat → Byte} {i : Nat} (hi : i < A.entries.length)

include hi

/-- What stands behind the header of an entry. -/
theorem drop_contents : A.bytes.drop (A.offset i + 512) = (A.entries.get ⟨i, hi⟩).contents ++
    (List.replicate (padding (A.entries.get ⟨i, hi⟩).contents.length) 0 ++
      ((A.entries.drop (i + 1)).flatMap Entry.bytes ++ List.replicate (512 * A.zeroBlocks) 0)) := by
  rw [← List.drop_drop, A.drop_offset hi, Entry.bytes, List.append_assoc, List.append_assoc,
    ← header_length (A.entries.get ⟨i, hi⟩), List.drop_left]

/-- The size of the entry, as `sys_open` decodes it. -/
theorem headerSize_offset :
    headerSize A.bytes (A.offset i) = (A.entries.get ⟨i, hi⟩).contents.length :=
  headerSize_entry (A.drop_offset hi) (contents_lt (A.drop_offset hi))

/-- A zero stands behind a plain entry. -/
theorem Plain.behind (h : Plain A i hi) : ∃ behind,
    A.bytes.drop (A.offset i + 512) = (A.entries.get ⟨i, hi⟩).contents ++ 0 :: behind := by
  have htwo := A.two_le
  rw [drop_contents hi]
  rcases h.padded with hmod | hlast
  · obtain ⟨n, hn⟩ : ∃ n, padding (A.entries.get ⟨i, hi⟩).contents.length = n + 1 := by
      rw [padding, if_neg hmod]
      exact ⟨511 - (A.entries.get ⟨i, hi⟩).contents.length % 512, by omega⟩
    exact ⟨_, by rw [hn, List.replicate_succ, List.cons_append]⟩
  · have hnone : A.entries.drop (i + 1) = [] := List.drop_eq_nil_iff.mpr (by omega)
    obtain ⟨n, hn⟩ : ∃ n, padding (A.entries.get ⟨i, hi⟩).contents.length + 512 * A.zeroBlocks = n + 1 :=
      ⟨padding (A.entries.get ⟨i, hi⟩).contents.length + 512 * A.zeroBlocks - 1, by omega⟩
    refine ⟨List.replicate n 0, ?_⟩
    rw [hnone, List.flatMap_nil, List.nil_append, List.replicate_append_replicate, hn,
      List.replicate_succ]

/-- The bytes of a plain entry in memory. -/
theorem Plain.loaded (hload : Loaded A base mem) (h : Plain A i hi) :
    (∀ k (hk : k < (A.entries.get ⟨i, hi⟩).contents.length),
      mem (base + (A.offset i + 512) + k) = (A.entries.get ⟨i, hi⟩).contents.get ⟨k, hk⟩) ∧
    mem (base + (A.offset i + 512) + (A.entries.get ⟨i, hi⟩).contents.length) = 0 := by
  obtain ⟨behind, hdrop⟩ := h.behind hi
  have hat : ∀ k x, (A.bytes.drop (A.offset i + 512))[k]? = some x →
      mem (base + (A.offset i + 512) + k) = x := by
    intro k x hx
    rw [List.getElem?_drop, List.getElem?_eq_some_iff] at hx
    obtain ⟨hlt, hget⟩ := hx
    rw [Nat.add_assoc, hload _ hlt]
    exact hget
  constructor
  · intro k hk
    apply hat
    rw [hdrop, List.getElem?_append_left hk]
    exact List.getElem?_eq_getElem hk
  · apply hat
    rw [hdrop, List.getElem?_append_right le_rfl, Nat.sub_self]
    rfl

end

/-- A descriptor that `sys_open` has just handed out. -/
theorem opens_progress {A : Archive} {base : Nat} {s s' : Files} {t : Slot} {c : Byte} {name : List Byte}
    {fd : Fin 100} {i : Nat} (hi : i < A.entries.length) (hs : Records s)
    (hidx : A.entries.findIdx? (fun e => e.name = name) = some i)
    (ho : sysOpen A.bytes base s t (c :: name) = some (some fd, s')) :
    3 ≤ fd.val ∧ Progress s' t fd (base + (A.offset i + 512)) (A.entries.get ⟨i, hi⟩).contents 0 := by
  have hname : name ≠ [] := by
    obtain ⟨_, hget, -⟩ := List.findIdx?_eq_some_iff_getElem.mp hidx
    have hpos := (A.entries[i]).name_pos
    rintro rfl
    simp_all
  rcases sysOpen_cases ho with ⟨hnone, -⟩ | ⟨w, start, j, hw, hdata, hj, hfd, rfl⟩
  · cases hnone
  · rw [sysOpenWalk, List.tail_cons, A.headerWalk_bytes hname] at hw
    have hstart : start = A.offset i + 512 := by
      rw [← Option.some.inj hw, Archive.locate, hidx] at hdata
      exact (Option.some.inj hdata).symm
    obtain rfl : fd = j := Option.some.inj hfd
    subst hstart
    refine ⟨(freeFd_spec hj).1, openFd_records hs, ?_, ?_, ⟨false, ?_, by simp⟩, by simp⟩
    · simp [openFd]
    · change setFlag s.openFiles t fd true t fd = true
      simp [setFlag_apply]
    · rw [← headerSize_offset hi]
      simp [openFd]

/-! ## Whole sessions -/

structure SoFar (contents : List Byte) (outs : List (Int × ReadResult)) (done : Nat) : Prop where
  file : ReadsFile contents outs
  bytes : returned outs = contents.take done

theorem SoFar.read {contents : List Byte} {outs : List (Int × ReadResult)} {done : Nat} {nBytes : Int}
    (h : SoFar contents outs done) (hle : done ≤ contents.length) (hn : 0 < nBytes)
    (hroom : (contents.length : Int) - done < nBytes ∨ (contents.length : Int) - done = 0) :
    SoFar contents (outs ++ [(nBytes, copied ((contents.drop done).take nBytes.toNat))])
      (done + ((contents.drop done).take nBytes.toNat).length) := by
  have hlen : (contents.drop done).length = contents.length - done := List.length_drop
  have hbytes : returned (outs ++ [(nBytes, copied ((contents.drop done).take nBytes.toNat))]) =
      contents.take (done + ((contents.drop done).take nBytes.toNat).length) := by
    rw [returned, List.flatMap_append, List.flatMap_singleton, copied_returned, ← returned, h.bytes,
      List.take_add]
    congr 1
    rw [List.length_take, List.take_eq_take_min]
  refine ⟨⟨?_, ?_, ?_⟩, hbytes⟩
  · intro o ho
    rcases List.mem_append.mp ho with ho | ho
    · exact h.file.fits o ho
    · rw [List.mem_singleton.mp ho, copied]
      split_ifs with hnil
      · simpa using hn.le
      · rw [List.length_append, List.length_take, hlen, List.length_singleton]
        rcases hroom with hroom | hroom
        · omega
        · rw [List.take_eq_nil_iff, List.drop_eq_nil_iff] at hnil
          omega
  · rw [hbytes]
    exact List.take_prefix _ _
  · intro k hk hzero
    by_cases hlast : k < outs.length
    · rw [List.take_append_of_le_length hlast.le]
      refine h.file.ends k hlast ?_
      simpa [List.getElem_append_left hlast] using hzero
    · have hk' : k = outs.length := by
        rw [List.length_append, List.length_singleton] at hk
        omega
      subst hk'
      have hempty : ((contents.drop done).take nBytes.toNat).length = 0 := by
        simpa [copied] using hzero
      rw [List.take_left, h.bytes, List.length_take]
      rw [List.length_take, hlen] at hempty
      omega

theorem session_progress {A : Archive} {base : Nat} {mem : Nat → Byte} {i : Nat}
    (hi : i < A.entries.length) (hload : Loaded A base mem) (hplain : Plain A i hi) {t : Slot}
    {fd : Fin 100} {s₀ s : Files} {outs : List (Int × ReadResult)} (hpos : 3 ≤ fd.val)
    (hfd : fd.val ≤ 10)
    (h₀ : Progress s₀ t fd (base + (A.offset i + 512)) (A.entries.get ⟨i, hi⟩).contents 0)
    (h : Session A.bytes base mem (Meets fd) t fd s₀ outs s) :
    ∃ done, Progress s t fd (base + (A.offset i + 512)) (A.entries.get ⟨i, hi⟩).contents done ∧
      SoFar (A.entries.get ⟨i, hi⟩).contents outs done := by
  obtain ⟨hmem, hend⟩ := hplain.loaded hi hload
  induction h with
  | start =>
    exact ⟨0, h₀, ⟨by simp, by simp [returned], by simp⟩, by simp [returned]⟩
  | @read outs s nBytes h hn hc ih =>
    obtain ⟨done, hp, hs⟩ := ih
    obtain ⟨hresult, hp'⟩ := hp.sysRead hpos hfd hplain.noZero hmem hend nBytes
    have hroom : left s fd < nBytes ∨ left s fd = 0 := by
      simpa [Meets] using hc
    rw [hp.left_eq] at hroom
    refine ⟨_, hp', ?_⟩
    rw [hresult]
    exact hs.read hp.le hn hroom
  | @other outs s u f nBytes h hf hc ih =>
    obtain ⟨done, hp, hs⟩ := ih
    have hten : fd = 10 → s.openFiles u f = true → f.val < 10 ∧ f ≠ 1 ∧ f ≠ 2 := by
      simpa [Meets, hf] using hc
    exact ⟨done, hp.other hfd hf nBytes hten, hs⟩
  | opens h hc ho ih =>
    obtain ⟨done, hp, hs⟩ := ih
    exact ⟨done, hp.opens ho, hs⟩

/-- Reading a plain file through one of the first descriptors, with room for the
terminator, returns the file. -/
theorem read_returns_file (A : Archive) (base : Nat) (mem : Nat → Byte) (hload : Loaded A base mem)
    (ops : List Op) (s : Files) (hs : Transition.run (step A.bytes base mem) Files.start ops = some s)
    (t : Slot) (c : Byte) (name : List Byte) (i : Nat) (hi : i < A.entries.length)
    (hidx : A.entries.findIdx? (fun e => e.name = name) = some i) (fd : Fin 100) (s₀ : Files)
    (ho : sysOpen A.bytes base s t (c :: name) = some (some fd, s₀)) (hfd : fd.val ≤ 10)
    (hplain : Plain A i hi) (outs : List (Int × ReadResult)) (s' : Files)
    (h : Session A.bytes base mem (Meets fd) t fd s₀ outs s') :
    ReadsFile (A.entries.get ⟨i, hi⟩).contents outs := by
  obtain ⟨hpos, h₀⟩ := opens_progress hi (run_records hs) hidx ho
  obtain ⟨done, -, hsofar⟩ := session_progress hi hload hplain hpos hfd h₀ h
  exact hsofar.file

/-! ## Two small files -/

def withFile (contents : List Byte) (small : 2048 + contents.length < 2 ^ 28) : Archive where
  entries := [plainEntry [97] contents headerName_a]
  zeroBlocks := 2
  two_le := two_blocks
  small := by
    simp only [List.flatMap_singleton, bytes_length, plainEntry, padding]
    split_ifs <;> omega

def memOf (A : Archive) (k : Nat) : Byte := A.bytes.getD k 0

theorem memOf_loaded (A : Archive) : Loaded A 0 (memOf A) := by
  intro k hk
  simp [memOf, List.getD, hk]

theorem freeFd_start : freeFd Files.start = some 3 := by decide

theorem open_first {A : Archive} {w : Walk} {start : Nat} (hw : sysOpenWalk A.bytes [47, 97] = some w)
    (hdata : w.data = some start) : sysOpen A.bytes 0 Files.start 0 [47, 97] =
      some (some 3, openFd A.bytes 0 Files.start 0 start 3) := by
  rw [sysOpen, hw, Option.map_some, hdata, freeFd_start]

def letters : Archive := withFile [65, 66] (by decide)

/-- The two bytes of `letters`, read with room for five. -/
theorem read_returns_file_letters :
    ReadsFile [65, 66] [(5, ⟨2, [65, 66, 0]⟩)] := by
  have hopen := open_first (A := letters) (w := ⟨[0], some 512⟩) (by decide +kernel) rfl
  have hread := @Session.read letters.bytes 0 (memOf letters) (Meets 3) 0 3
    (openFd letters.bytes 0 Files.start 0 512 3) _ _ 5 .start (by decide) (Or.inl (by decide +kernel))
  have hresult : (sysRead (memOf letters) (openFd letters.bytes 0 Files.start 0 512 3) 0 3 5).1 =
      ⟨2, [65, 66, 0]⟩ := by decide +kernel
  rw [hresult] at hread
  exact read_returns_file letters 0 (memOf letters) (memOf_loaded letters) [] Files.start rfl 0 47 [97] 0
    (by decide) (by decide) 3 _ hopen (by decide) ⟨by decide, by decide⟩ _ _ hread

def binary : Archive := withFile [65, 0, 66] (by decide)

/-- Of the three bytes of `binary`, reads of one byte each return one; the first
stores two bytes in the buffer and the second reports the end. -/
theorem zero_byte_ends_file : ∃ s₀ s' outs,
    sysOpen binary.bytes 0 Files.start 0 [47, 97] = some (some 3, s₀) ∧
    Session binary.bytes 0 (memOf binary) (fun _ _ => True) 0 3 s₀ outs s' ∧
    ¬ ReadsFile [65, 0, 66] outs ∧ outs = [(1, ⟨1, [65, 0]⟩), (1, ⟨0, []⟩)] := by
  have hopen := open_first (A := binary) (w := ⟨[0], some 512⟩) (by decide +kernel) rfl
  have hread := @Session.read binary.bytes 0 (memOf binary) (fun _ _ => True) 0 3
    (openFd binary.bytes 0 Files.start 0 512 3) _ _ 1 .start (by decide) trivial
  have hagain := hread.read (by decide : (0 : Int) < 1) trivial
  refine ⟨_, _, _, hopen, hagain, ?_, by decide +kernel⟩
  intro hfile
  have hlong := hfile.fits _ (List.mem_append_left _ (List.mem_singleton_self _))
  exact absurd hlong (by decide +kernel)

end FileRead
