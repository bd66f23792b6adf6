import DeepOS.Strings
import DeepOS.TarSize

/-!
# The archive

The files live in a ustar archive that is linked into the kernel. Positions are
offsets from `_binary_tarfs_start`. `sys_open`, `sys_opendir` and `get_elf_file`
look for a header with the wanted name; they leave the loop at the first one, and
otherwise go on, through the zero blocks at the end, until the archive is used up.
-/
namespace Tarfs

open CString Strings TarSize

/-! ## Headers as the kernel reads them -/

def headerName (a : List Byte) (start : Nat) : List Byte := strAt a start

/-- The size field, read as decimal digits and converted. -/
def headerSize (a : List Byte) (start : Nat) : Int := octalDecimal (accumulate (strAt a (start + 124)))

/-- `start + 512 + size + offset`. -/
def nextHeader (a : List Byte) (start : Nat) : Nat :=
  let size := headerSize a start
  let offset := if size.tmod 512 ≠ 0 then 512 - size.tmod 512 else 0
  ((start : Int) + 512 + size + offset).toNat

/-- The headers that were compared, and the position behind the one that matched. -/
structure Walk where
  visited : List Nat
  data : Option Nat
  deriving DecidableEq, Repr

/-- The loop over the headers; no result when it does not end within `fuel` turns. -/
def headerWalk (a wanted : List Byte) : Nat → Nat → Option Walk
  | 0, _ => none
  | fuel + 1, start =>
    if start < a.length then
      if strcmp (headerName a start) wanted = 0 then some ⟨[start], some (start + 512)⟩
      else (headerWalk a wanted fuel (nextHeader a start)).map fun w => ⟨start :: w.visited, w.data⟩
    else some ⟨[], none⟩

/-- The search of `sys_open` for `&fname[1]`. -/
def sysOpenWalk (a fname : List Byte) : Option Walk := headerWalk a fname.tail (a.length + 1) 0

/-- The search of `sys_opendir` for `&dirname[1]`, when `dirname` is not `/`. -/
def sysOpendirWalk (a dirname : List Byte) : Option Walk := headerWalk a dirname.tail (a.length + 1) 0

/-- The search of `get_elf_file` for `filename + 1`; a position behind the end counts as absence. -/
def getElfFileWalk (a filename : List Byte) : Option Walk :=
  (headerWalk a filename.tail (a.length + 1) 0).map fun w =>
    { w with data := w.data.filter fun start => decide (start < a.length) }

/-! ## Well-formed archives -/

def octalDigits : Nat → Nat → List (Fin 8)
  | 0, _ => []
  | w + 1, n => Fin.ofNat 8 n :: octalDigits w (n / 8)

theorem octalDigits_length (w n : Nat) : (octalDigits w n).length = w := by
  induction w generalizing n with
  | zero => rfl
  | succ w ih => simp [octalDigits, ih]

theorem valueIn_octalDigits (w n : Nat) (h : n < 8 ^ w) : valueIn 8 (octalDigits w n) = n := by
  induction w generalizing n with
  | zero =>
    have : n = 0 := by simpa using h
    simp [octalDigits, this]
  | succ w ih =>
    rw [pow_succ] at h
    rw [octalDigits, valueIn_cons, ih (n / 8) (by omega), Fin.val_ofNat]
    omega

def sizeField (n : Nat) : SizeField := ⟨octalDigits 11 n, octalDigits_length 11 n⟩

def padding (n : Nat) : Nat := if n % 512 = 0 then 0 else 512 - n % 512

/-- One file or directory. The header fields that the kernel does not read are
kept as they are: those between the name and the size, and those behind the size. -/
structure Entry where
  name : List Byte
  owner : List Byte
  rest : List Byte
  contents : List Byte
  isStr : IsStr name
  name_pos : 0 < name.length
  name_le : name.length ≤ 99
  owner_length : owner.length = 24
  rest_length : rest.length = 376

def Entry.header (e : Entry) : List Byte :=
  e.name ++ List.replicate (100 - e.name.length) 0 ++ e.owner ++
    (sizeField e.contents.length).bytes ++ e.rest

def Entry.bytes (e : Entry) : List Byte :=
  e.header ++ e.contents ++ List.replicate (padding e.contents.length) 0

/-- A ustar archive below 256 MB that ends in at least two zero blocks. -/
structure Archive where
  entries : List Entry
  zeroBlocks : Nat
  two_le : 2 ≤ zeroBlocks
  small : (entries.flatMap Entry.bytes).length + 512 * zeroBlocks < 2 ^ 28

def Archive.bytes (A : Archive) : List Byte :=
  A.entries.flatMap Entry.bytes ++ List.replicate (512 * A.zeroBlocks) 0

def offsetFrom (p : Nat) (es : List Entry) (i : Nat) : Nat := p + ((es.take i).flatMap Entry.bytes).length

def Archive.offset (A : Archive) (i : Nat) : Nat := offsetFrom 0 A.entries i

/-! ## Reading an entry -/

theorem header_length (e : Entry) : e.header.length = 512 := by
  have hname := e.name_le
  simp [Entry.header, SizeField.bytes, e.owner_length, e.rest_length, (sizeField _).eleven]
  omega

theorem bytes_length (e : Entry) :
    e.bytes.length = 512 + e.contents.length + padding e.contents.length := by
  simp only [Entry.bytes, List.length_append, header_length, List.length_replicate]

section

variable {a : List Byte} {p : Nat} {e : Entry} {behind : List Byte}

theorem headerName_entry (h : a.drop p = e.bytes ++ behind) : headerName a p = e.name := by
  have hname := e.name_le
  obtain ⟨n, hn⟩ : ∃ n, 100 - e.name.length = n + 1 := ⟨99 - e.name.length, by omega⟩
  have hsplit : a.drop p = e.name ++ 0 :: (List.replicate n 0 ++ (e.owner ++
      ((sizeField e.contents.length).bytes ++ (e.rest ++ (e.contents ++
        (List.replicate (padding e.contents.length) 0 ++ behind)))))) := by
    rw [h, Entry.bytes, Entry.header, hn, List.replicate_succ]
    simp only [List.append_assoc, List.cons_append]
  exact strAt_eq hsplit e.isStr

theorem headerSize_entry (h : a.drop p = e.bytes ++ behind) (hlen : e.contents.length < 2 ^ 28) :
    headerSize a p = e.contents.length := by
  have hname := e.name_le
  have hsplit : a.drop p = (e.name ++ List.replicate (100 - e.name.length) 0 ++ e.owner) ++
      ((sizeField e.contents.length).bytes ++
        (e.rest ++ (e.contents ++ (List.replicate (padding e.contents.length) 0 ++ behind)))) := by
    rw [h, Entry.bytes, Entry.header]
    simp only [List.append_assoc]
  have hfront : (e.name ++ List.replicate (100 - e.name.length) 0 ++ e.owner).length = 124 := by
    simp [e.owner_length]
    omega
  have hvalue : (sizeField e.contents.length).value = e.contents.length :=
    valueIn_octalDigits 11 _ (by omega)
  rw [headerSize, strAt_add hsplit hfront, SizeField.decoded _ (by omega), hvalue]

theorem nextHeader_entry (h : a.drop p = e.bytes ++ behind) (hlen : e.contents.length < 2 ^ 28) :
    nextHeader a p = p + e.bytes.length := by
  have hmod : (e.contents.length : Int).tmod 512 = ((e.contents.length % 512 : Nat) : Int) := by
    rw [Int.tmod_eq_emod_of_nonneg (by omega)]
    rfl
  simp only [nextHeader]
  rw [headerSize_entry h hlen, hmod, bytes_length, padding]
  split_ifs <;> omega

theorem drop_next (h : a.drop p = e.bytes ++ behind) : a.drop (p + e.bytes.length) = behind := by
  rw [← List.drop_drop, h, List.drop_left]

end

section

variable {a : List Byte} {p z : Nat}

/-- A zero block is read as a header without a name and without contents. -/
theorem headerName_zero (h : a.drop p = List.replicate (512 * (z + 1)) 0) : headerName a p = [] := by
  rw [headerName, strAt, h, show 512 * (z + 1) = (512 * z + 511) + 1 by omega, List.replicate_succ]
  rfl

theorem drop_zero (h : a.drop p = List.replicate (512 * (z + 1)) 0) (n : Nat) :
    a.drop (p + n) = List.replicate (512 * (z + 1) - n) 0 := by
  rw [← List.drop_drop, h, List.drop_replicate]

theorem headerSize_zero (h : a.drop p = List.replicate (512 * (z + 1)) 0) : headerSize a p = 0 := by
  rw [headerSize, strAt, drop_zero h, show 512 * (z + 1) - 124 = (512 * z + 387) + 1 by omega,
    List.replicate_succ]
  rfl

theorem nextHeader_zero (h : a.drop p = List.replicate (512 * (z + 1)) 0) :
    nextHeader a p = p + 512 := by
  simp only [nextHeader]
  rw [headerSize_zero h]
  rfl

end

/-! ## The searches -/

/-- Where the search for `name` ends: behind the header of the first entry of that name. -/
def Archive.locate (A : Archive) (name : List Byte) : Option Nat :=
  (A.entries.findIdx? fun e => e.name = name).map fun i => A.offset i + 512

/-- The headers compared in the search for `name`: those of the entries up to the
first one of that name or, when there is none, of all entries and then the zero blocks. -/
def Archive.visits (A : Archive) (name : List Byte) : List Nat :=
  match A.entries.findIdx? fun e => e.name = name with
  | some i => (List.range (i + 1)).map A.offset
  | none => (List.range A.entries.length).map A.offset ++
      (List.range A.zeroBlocks).map fun j => A.offset A.entries.length + 512 * j

theorem map_range_succ {α : Type} (f : Nat → α) (n : Nat) :
    (List.range (n + 1)).map f = f 0 :: (List.range n).map fun i => f (i + 1) := by
  rw [List.range_succ_eq_map, List.map_cons, List.map_map]
  rfl

theorem headerWalk_zeros {a wanted : List Byte} (hw : wanted ≠ []) (z : Nat) : ∀ {p fuel : Nat},
    a.drop p = List.replicate (512 * z) 0 → p + 512 * z = a.length → z < fuel →
    headerWalk a wanted fuel p = some ⟨(List.range z).map fun j => p + 512 * j, none⟩ := by
  induction z with
  | zero =>
    intro p fuel _ hlen hfuel
    cases fuel with
    | zero => omega
    | succ fuel => simp [headerWalk, show ¬ p < a.length by omega]
  | succ z ih =>
    intro p fuel h hlen hfuel
    cases fuel with
    | zero => omega
    | succ fuel =>
      have hname : strcmp (headerName a p) wanted ≠ 0 := by
        rw [headerName_zero h, ne_eq, strcmp_eq_zero]
        exact hw.symm
      have hdrop : a.drop (p + 512) = List.replicate (512 * z) 0 := by
        rw [drop_zero h, show 512 * (z + 1) - 512 = 512 * z by omega]
      have hrest := ih hdrop (by omega) (by omega : z < fuel)
      have hshift : ∀ j, p + 512 * (j + 1) = p + 512 + 512 * j := fun j => by ring
      rw [headerWalk, if_pos (by omega), if_neg hname, nextHeader_zero h, hrest, Option.map_some,
        map_range_succ]
      simp only [hshift, Nat.mul_zero, Nat.add_zero]

theorem offsetFrom_cons (p : Nat) (e : Entry) (es : List Entry) (i : Nat) :
    offsetFrom p (e :: es) (i + 1) = offsetFrom (p + e.bytes.length) es i := by
  simp [offsetFrom]
  omega

/-- The search through the entries `es` that stand at `p`, before `z` zero blocks. -/
theorem headerWalk_entries {a wanted : List Byte} (hw : wanted ≠ []) (z : Nat) (es : List Entry) :
    ∀ {p fuel : Nat}, a.drop p = es.flatMap Entry.bytes ++ List.replicate (512 * z) 0 →
    p + (es.flatMap Entry.bytes).length + 512 * z = a.length → a.length < 2 ^ 28 →
    es.length + z < fuel →
    headerWalk a wanted fuel p = some (match es.findIdx? fun e => e.name = wanted with
      | some i => ⟨(List.range (i + 1)).map (offsetFrom p es), some (offsetFrom p es i + 512)⟩
      | none => ⟨(List.range es.length).map (offsetFrom p es) ++
          (List.range z).map fun j => offsetFrom p es es.length + 512 * j, none⟩) := by
  induction es with
  | nil =>
    intro p fuel h hlen _ hfuel
    have hz := headerWalk_zeros hw z (by simpa using h) (by simpa using hlen) (by simpa using hfuel)
    simpa [offsetFrom] using hz
  | cons e es ih =>
    intro p fuel h hlen hsmall hfuel
    have hsplit : a.drop p = e.bytes ++ (es.flatMap Entry.bytes ++ List.replicate (512 * z) 0) := by
      rw [h, List.flatMap_cons, List.append_assoc]
    have hbytes := bytes_length e
    rw [List.flatMap_cons, List.length_append] at hlen
    cases fuel with
    | zero => omega
    | succ fuel =>
      rw [headerWalk, if_pos (by omega), headerName_entry hsplit]
      by_cases hname : e.name = wanted
      · simp [hname, (strcmp_eq_zero _ _).mpr, List.findIdx?_cons, offsetFrom]
      · have hne : strcmp e.name wanted ≠ 0 := by rwa [ne_eq, strcmp_eq_zero]
        have hfuel' : es.length + z < fuel := by
          rw [List.length_cons] at hfuel
          omega
        have hfirst : offsetFrom p (e :: es) 0 = p := rfl
        rw [if_neg hne, nextHeader_entry hsplit (by omega),
          ih (drop_next hsplit) (by omega) hsmall hfuel', Option.map_some]
        simp only [List.findIdx?_cons, hname, decide_false, Bool.false_eq_true, if_false]
        cases es.findIdx? fun e => e.name = wanted with
        | none =>
          simp only [Option.map_none, List.length_cons, map_range_succ, offsetFrom_cons, hfirst,
            List.cons_append]
        | some i =>
          simp only [Option.map_some, map_range_succ _ (i + 1), offsetFrom_cons, hfirst]

theorem Archive.length_bytes (A : Archive) :
    A.bytes.length = (A.entries.flatMap Entry.bytes).length + 512 * A.zeroBlocks := by
  rw [Archive.bytes, List.length_append, List.length_replicate]

theorem contents_lt {A : Archive} {e : Entry} {p : Nat} {behind : List Byte}
    (h : A.bytes.drop p = e.bytes ++ behind) : e.contents.length < 2 ^ 28 := by
  have hlen := congrArg List.length h
  have hsmall := A.small
  have htotal := A.length_bytes
  have hbytes := bytes_length e
  rw [List.length_drop, List.length_append] at hlen
  omega

/-- The bytes from the header of an entry on. -/
theorem Archive.drop_offset (A : Archive) {i : Nat} (hi : i < A.entries.length) :
    A.bytes.drop (A.offset i) = (A.entries.get ⟨i, hi⟩).bytes ++
      ((A.entries.drop (i + 1)).flatMap Entry.bytes ++ List.replicate (512 * A.zeroBlocks) 0) := by
  have hsplit : A.entries = A.entries.take i ++ A.entries.get ⟨i, hi⟩ :: A.entries.drop (i + 1) := by
    rw [List.get_eq_getElem, List.getElem_cons_drop, List.take_append_drop]
  have hbytes : A.bytes = (A.entries.take i).flatMap Entry.bytes ++
      ((A.entries.get ⟨i, hi⟩).bytes ++ ((A.entries.drop (i + 1)).flatMap Entry.bytes ++
        List.replicate (512 * A.zeroBlocks) 0)) := by
    conv_lhs => rw [Archive.bytes, hsplit]
    simp only [List.flatMap_append, List.flatMap_cons, List.append_assoc]
  rw [Archive.offset, offsetFrom, Nat.zero_add, hbytes, List.drop_left]

theorem length_le_flatMap (es : List Entry) : 512 * es.length ≤ (es.flatMap Entry.bytes).length := by
  induction es with
  | nil => simp
  | cons e es ih =>
    have := bytes_length e
    rw [List.flatMap_cons, List.length_append, List.length_cons]
    omega

/-- Behind every header there is still some of the archive. -/
theorem Archive.offset_lt (A : Archive) {i : Nat} (hi : i < A.entries.length) :
    A.offset i + 512 < A.bytes.length := by
  have htwo := A.two_le
  have hlen := congrArg List.length (A.drop_offset hi)
  have hbytes := bytes_length (A.entries.get ⟨i, hi⟩)
  rw [List.length_drop, List.length_append, List.length_append, List.length_replicate] at hlen
  omega

/-- The one loop that the three searches share. -/
theorem Archive.headerWalk_bytes (A : Archive) {name : List Byte} (hname : name ≠ []) :
    headerWalk A.bytes name (A.bytes.length + 1) 0 = some ⟨A.visits name, A.locate name⟩ := by
  have hsmall := A.small
  have hlen := A.length_bytes
  have hcount := length_le_flatMap A.entries
  rw [headerWalk_entries hname A.zeroBlocks A.entries rfl (by omega) (by omega) (by omega),
    Archive.visits, Archive.locate]
  cases A.entries.findIdx? fun e => e.name = name with
  | none => rfl
  | some i => rfl

theorem Archive.locate_lt (A : Archive) {name : List Byte} {p : Nat} (h : A.locate name = some p) :
    p < A.bytes.length := by
  rw [Archive.locate, Option.map_eq_some_iff] at h
  obtain ⟨i, hi, rfl⟩ := h
  exact A.offset_lt (List.findIdx?_eq_some_iff_getElem.mp hi).1

theorem Archive.locate_eq_none (A : Archive) (name : List Byte) :
    A.locate name = none ↔ ∀ e ∈ A.entries, e.name ≠ name := by
  simp [Archive.locate]

/-- The check of `get_elf_file` for the end of the archive never fails. -/
theorem Archive.getElfFileWalk_bytes (A : Archive) (c : Byte) {name : List Byte} (hname : name ≠ []) :
    getElfFileWalk A.bytes (c :: name) = some ⟨A.visits name, A.locate name⟩ := by
  rw [getElfFileWalk, List.tail_cons, A.headerWalk_bytes hname, Option.map_some]
  congr 2
  cases hloc : A.locate name with
  | none => rfl
  | some p => simp [Option.filter, A.locate_lt hloc]

/-- The three searches compare the same headers and end behind the same one: the
first entry named as the path without its first character. They report absence
when there is no such entry. -/
theorem archive_lookups_agree (A : Archive) (c : Byte) (name : List Byte) (hname : name ≠ []) :
    sysOpenWalk A.bytes (c :: name) = some ⟨A.visits name, A.locate name⟩ ∧
    sysOpendirWalk A.bytes (c :: name) = some ⟨A.visits name, A.locate name⟩ ∧
    getElfFileWalk A.bytes (c :: name) = some ⟨A.visits name, A.locate name⟩ ∧
    (A.locate name = none ↔ ∀ e ∈ A.entries, e.name ≠ name) := by
  have hwalk := A.headerWalk_bytes hname
  exact ⟨hwalk, hwalk, A.getElfFileWalk_bytes c hname, A.locate_eq_none name⟩

structure HeaderName (name : List Byte) : Prop where
  isStr : IsStr name
  pos : 0 < name.length
  le : name.length ≤ 99

def plainEntry (name contents : List Byte) (h : HeaderName name) : Entry where
  name := name
  owner := List.replicate 24 0
  rest := List.replicate 376 0
  contents := contents
  isStr := h.isStr
  name_pos := h.pos
  name_le := h.le
  owner_length := List.length_replicate
  rest_length := List.length_replicate

theorem headerName_a : HeaderName [97] := ⟨by decide, by decide, by decide⟩

theorem two_blocks : 2 ≤ 2 := le_rfl

def oneFile : Archive where
  entries := [plainEntry [97] [] headerName_a]
  zeroBlocks := 2
  two_le := two_blocks
  small := by decide +kernel

/-- The search for `/a` in `oneFile` ends behind its only header. -/
theorem archive_lookups_agree_oneFile :
    sysOpenWalk oneFile.bytes [47, 97] = some ⟨[0], some 512⟩ ∧
      getElfFileWalk oneFile.bytes [47, 97] = some ⟨[0], some 512⟩ := by
  obtain ⟨hopen, -, helf, -⟩ := archive_lookups_agree oneFile 47 [97] (by decide)
  exact ⟨hopen, helf⟩

/-- The search for a name that is not there also compares the zero blocks. -/
theorem absent_search_visits_zeros : ∃ w, sysOpenWalk oneFile.bytes [47, 98] = some w ∧
    w.visited ≠ (List.range oneFile.entries.length).map oneFile.offset := by
  have hwalk := oneFile.headerWalk_bytes (by decide : ([98] : List Byte) ≠ [])
  refine ⟨_, hwalk, ?_⟩
  intro h
  have hlen := congrArg List.length h
  exact absurd hlen (by decide)

end Tarfs
