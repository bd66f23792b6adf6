import DeepOS.FileTree

/-!
# Reading a directory to its end

The answers of repeated calls of `sys_readdir` on one descriptor, and what
`sys_ls` prints.
-/
namespace Listing

open TaskTable CString Strings Tarfs Directory FileTree

/-! ## One loop for the root and for other directories -/

/-- The loop of `getFileName`, in its test and in the length of the path that is
cut off. The loop for the root differs in these two. -/
def scan (a : List Byte) (more : Nat → Bool) (lenAdd : Nat) :
    Nat → Dir → Dir → Option (List Byte × Dir × Dir)
  | 0, _, _ => none
  | fuel + 1, dir, shared =>
    let start := nextHeader a dir.curPos
    if more dir.curPos then
      let buff := fetchName (headerName a dir.curPos) lenAdd
      if strcmp buff dir.prevFile ≠ 0 then
        some (buff, { dir with prevFile := buff, curPos := start },
          { shared with prevFile := buff, curPos := start })
      else scan a more lenAdd fuel { dir with curPos := start } { shared with curPos := start }
    else some ([], { dir with eofDirectory := true }, { shared with eofDirectory := true })

def more (a d : List Byte) (p : Nat) : Bool :=
  if d = [] then p < a.length else contains (headerName a p) d

theorem scanDir_eq (a : List Byte) {d : List Byte} (hd : d ≠ []) (fuel : Nat) (dir shared : Dir) :
    scanDir a d fuel dir shared = scan a (more a d) d.length fuel dir shared := by
  induction fuel generalizing dir shared with
  | zero => rfl
  | succ fuel ih => simp only [scanDir, scan, more, hd, if_false, ih]

theorem getRootSubdirectories_eq (a : List Byte) (fuel : Nat) (dir shared : Dir) :
    getRootSubdirectories a fuel dir shared = scan a (more a []) 0 fuel dir shared := by
  induction fuel generalizing dir shared with
  | zero => rfl
  | succ fuel ih =>
    simp only [getRootSubdirectories, scan, more, if_true, ih, decide_eq_true_eq]

theorem getFileName_eq (a : List Byte) {d : List Byte} {dir : Dir} (shared : Dir)
    (hpath : dir.dirPath = 47 :: d) (hprev : d = [] ∨ dir.prevFile ≠ []) :
    getFileName a dir shared = scan a (more a d) d.length (a.length + 1) dir shared := by
  rw [getFileName, hpath]
  by_cases hd : d = []
  · subst hd
    rw [if_pos ((strcmp_eq_zero _ _).mpr rfl), getRootSubdirectories_eq]
    rfl
  · have hne : ¬ strcmp (47 :: d) [47] = 0 := by
      rw [strcmp_eq_zero]
      simpa using hd
    rw [if_neg hne, if_neg (hprev.resolve_left hd), List.tail_cons, scanDir_eq a hd]

/-! ## One turn of the loop -/

section

variable {A : Archive} {d n behind : List Byte} {e : Entry} {p : Nat}

theorem more_entry (h : A.bytes.drop p = e.bytes ++ behind) (hu : Under d n e.name) :
    more A.bytes d p = true := by
  by_cases hd : d = []
  · have hlen := congrArg List.length h
    have hbytes := bytes_length e
    rw [List.length_drop, List.length_append] at hlen
    simp only [more, hd, if_true, decide_eq_true_eq]
    omega
  · simp only [more, hd, if_false]
    rw [contains_iff, headerName_entry h]
    exact hu.path_le

variable {dir : Dir} (shared : Dir) (fuel : Nat)

/-- A header that is, or is below, the last child is passed over. -/
theorem scan_repeat (h : A.bytes.drop dir.curPos = e.bytes ++ behind)
    (hu : Under d dir.prevFile e.name) (hn : (47 : Byte) ∉ dir.prevFile) :
    scan A.bytes (more A.bytes d) d.length (fuel + 1) dir shared =
      scan A.bytes (more A.bytes d) d.length fuel
        { dir with curPos := dir.curPos + e.bytes.length }
        { shared with curPos := dir.curPos + e.bytes.length } := by
  have hbuff : fetchName (headerName A.bytes dir.curPos) d.length = dir.prevFile := by
    rw [headerName_entry h, hu.fetchName hn]
  have hsame : ¬ strcmp dir.prevFile dir.prevFile ≠ 0 := by
    rw [not_not, strcmp_eq_zero]
  rw [scan, if_pos (more_entry h hu), hbuff, if_neg hsame, nextHeader_entry h (contents_lt h)]

/-- The first header of another child is the answer. -/
theorem scan_next (h : A.bytes.drop dir.curPos = e.bytes ++ behind) (hu : Under d n e.name)
    (hn : (47 : Byte) ∉ n) (hne : n ≠ dir.prevFile) :
    scan A.bytes (more A.bytes d) d.length (fuel + 1) dir shared =
      some (n, { dir with prevFile := n, curPos := dir.curPos + e.bytes.length },
        { shared with prevFile := n, curPos := dir.curPos + e.bytes.length }) := by
  have hbuff : fetchName (headerName A.bytes dir.curPos) d.length = n := by
    rw [headerName_entry h, hu.fetchName hn]
  have hdiff : strcmp n dir.prevFile ≠ 0 := by
    rwa [ne_eq, strcmp_eq_zero]
  rw [scan, if_pos (more_entry h hu), hbuff, if_pos hdiff, nextHeader_entry h (contents_lt h)]

theorem scan_stop (h : more A.bytes d dir.curPos = false) :
    scan A.bytes (more A.bytes d) d.length (fuel + 1) dir shared =
      some ([], { dir with eofDirectory := true }, { shared with eofDirectory := true }) := by
  rw [scan, h]
  rfl

/-- Entries that repeat the last name are passed over. -/
theorem scan_repeats (skip : List Entry) : ∀ {dir : Dir} (shared : Dir),
    A.bytes.drop dir.curPos = skip.flatMap Entry.bytes ++ behind →
    (∀ q ∈ skip, Under d dir.prevFile q.name) → (47 : Byte) ∉ dir.prevFile →
    ∃ shared', shared'.eofDirectory = shared.eofDirectory ∧
      scan A.bytes (more A.bytes d) d.length (fuel + skip.length) dir shared =
        scan A.bytes (more A.bytes d) d.length fuel
          { dir with curPos := dir.curPos + (skip.flatMap Entry.bytes).length } shared' := by
  induction skip with
  | nil => exact fun shared _ _ _ => ⟨shared, rfl, rfl⟩
  | cons e skip ih =>
    intro dir shared h hskip hn
    rw [List.flatMap_cons, List.append_assoc] at h
    obtain ⟨shared', heof, hscan⟩ := @ih { dir with curPos := dir.curPos + e.bytes.length }
      { shared with curPos := dir.curPos + e.bytes.length } (drop_next h)
      (fun q hq => hskip q (List.mem_cons_of_mem e hq)) hn
    refine ⟨shared', heof, ?_⟩
    rw [List.length_cons, ← Nat.add_assoc, scan_repeat shared _ h (hskip e List.mem_cons_self) hn,
      hscan, List.flatMap_cons, List.length_append, Nat.add_assoc]

end

/-! ## The zero blocks behind the root -/

section

variable {A : Archive} {z : Nat} {dir : Dir}

theorem more_zeros (h : A.bytes.drop dir.curPos = List.replicate (512 * (z + 1)) 0) :
    more A.bytes [] dir.curPos = true := by
  have hlen := congrArg List.length h
  rw [List.length_drop, List.length_replicate] at hlen
  simp only [more, if_true, decide_eq_true_eq]
  omega

theorem more_end (h : A.bytes.drop dir.curPos = []) : more A.bytes [] dir.curPos = false := by
  have hlen := List.drop_eq_nil_iff.mp h
  simp only [more, if_true, decide_eq_false_iff_not]
  omega

theorem fetchName_zero (h : A.bytes.drop dir.curPos = List.replicate (512 * (z + 1)) 0) :
    fetchName (headerName A.bytes dir.curPos) 0 = [] := by
  rw [headerName_zero h]
  rfl

/-- The first zero block is answered with an empty name. -/
theorem scan_zero (shared : Dir) (fuel : Nat)
    (h : A.bytes.drop dir.curPos = List.replicate (512 * (z + 1)) 0) (hprev : dir.prevFile ≠ []) :
    scan A.bytes (more A.bytes []) 0 (fuel + 1) dir shared =
      some ([], { dir with prevFile := [], curPos := dir.curPos + 512 },
        { shared with prevFile := [], curPos := dir.curPos + 512 }) := by
  have hdiff : strcmp [] dir.prevFile ≠ 0 := by
    rw [ne_eq, strcmp_eq_zero]
    exact hprev.symm
  rw [scan, if_pos (more_zeros h), fetchName_zero h, if_pos hdiff, nextHeader_zero h]

/-- The other zero blocks repeat that name, and the archive ends. -/
theorem scan_zeros (z : Nat) : ∀ {dir : Dir} (shared : Dir) {fuel : Nat},
    A.bytes.drop dir.curPos = List.replicate (512 * z) 0 → dir.prevFile = [] → z < fuel →
    ∃ dir' shared', scan A.bytes (more A.bytes []) 0 fuel dir shared = some ([], dir', shared') ∧
      dir'.fd = dir.fd ∧ shared'.eofDirectory = true := by
  induction z with
  | zero =>
    intro dir shared fuel h hprev hfuel
    cases fuel with
    | zero => omega
    | succ fuel =>
      have hstop := scan_stop shared fuel (more_end (by simpa using h))
      exact ⟨_, _, hstop, rfl, rfl⟩
  | succ z ih =>
    intro dir shared fuel h hprev hfuel
    cases fuel with
    | zero => omega
    | succ fuel =>
      have hsame : ¬ strcmp [] dir.prevFile ≠ 0 := by
        rw [not_not, strcmp_eq_zero, hprev]
      have hnext : A.bytes.drop (dir.curPos + 512) = List.replicate (512 * z) 0 := by
        rw [drop_zero h, show 512 * (z + 1) - 512 = 512 * z by omega]
      rw [scan, if_pos (more_zeros h), fetchName_zero h, if_neg hsame, nextHeader_zero h]
      exact @ih { dir with curPos := dir.curPos + 512 } _ fuel hnext hprev (by omega)

end

/-! ## Where a reader stands -/

/-- What stands behind the last entry of a directory. -/
def Stops (d behind : List Byte) : Prop :=
  (d = [] ∧ ∃ z, behind = List.replicate (512 * z) 0) ∨ (d ≠ [] ∧ ¬ d <+: behind.takeWhile (· ≠ 0))

/-- The reader stands before the entries `skip`, which repeat the last name; then
come those that hold the names `rest`. -/
structure Cursor (A : Archive) (d : List Byte) (dir : Dir) (rest : List (List Byte))
    (skip es : List Entry) (behind : List Byte) : Prop where
  path : dir.dirPath = 47 :: d
  split : A.bytes.drop dir.curPos = skip.flatMap Entry.bytes ++ (es.flatMap Entry.bytes ++ behind)
  noSlash : (47 : Byte) ∉ dir.prevFile
  repeats : ∀ q ∈ skip, Under d dir.prevFile q.name
  lists : Lists d es rest
  new : dir.prevFile ∉ rest
  stops : Stops d behind

inductive Answers (A : Archive) (d : List Byte) (dir shared : Dir) : List (List Byte) → Prop
  | own {names : List (List Byte)} {es : List Entry} {behind : List Byte} (hd : d ≠ [])
      (hopen : shared.eofDirectory = false) (hprev : dir.prevFile = [])
      (hc : Cursor A d { dir with prevFile := [46] } names [] es behind) :
      Answers A d dir shared ([46] :: names)
  | reading {names : List (List Byte)} {skip es : List Entry} {behind : List Byte}
      (hopen : shared.eofDirectory = false) (hprev : d = [] ∨ dir.prevFile ≠ [])
      (hc : Cursor A d dir names skip es behind) : Answers A d dir shared names
  | done (heof : shared.eofDirectory = true) : Answers A d dir shared []

section

variable {A : Archive} {d : List Byte} {dir shared : Dir} {rest : List (List Byte)}

/-- The loop has turns enough for the entries and for the zero blocks. -/
theorem fuel_le {skip es : List Entry} {behind : List Byte} (hc : Cursor A d dir rest skip es behind) :
    skip.length + behind.length / 512 ≤ A.bytes.length := by
  have hlen := congrArg List.length hc.split
  have hskip := length_le_flatMap skip
  rw [List.length_drop, List.length_append, List.length_append] at hlen
  omega

/-- Behind the repeated names. -/
theorem drop_skip {skip es : List Entry} {behind : List Byte} (hc : Cursor A d dir rest skip es behind) :
    A.bytes.drop (dir.curPos + (skip.flatMap Entry.bytes).length) = es.flatMap Entry.bytes ++ behind := by
  rw [← List.drop_drop, hc.split, List.drop_left]

/-- The first header behind them is that of the next child: it is answered, and
what is below it becomes what repeats the last name. -/
theorem scan_child {e : Entry} {n behind : List Byte} {kids es : List Entry}
    {names : List (List Byte)} {fuel : Nat} (hn : IsName n) (hne : n ≠ dir.prevFile)
    (hopen : shared.eofDirectory = false) (hpath : dir.dirPath = 47 :: d)
    (hsplit : A.bytes.drop dir.curPos =
      e.bytes ++ (kids.flatMap Entry.bytes ++ (es.flatMap Entry.bytes ++ behind)))
    (hu : Under d n e.name) (hkids : ∀ q ∈ kids, Under d n q.name) (hes : Lists d es names)
    (hnew : n ∉ names) (hstops : Stops d behind) :
    ∃ dir' shared', scan A.bytes (more A.bytes d) d.length (fuel + 1) dir shared =
        some (n, dir', shared') ∧ dir'.fd = dir.fd ∧ Answers A d dir' shared' names := by
  refine ⟨_, _, scan_next shared fuel hsplit hu hn.noSlash hne, rfl, ?_⟩
  exact .reading hopen (Or.inr hn.pos)
    ⟨hpath, drop_next hsplit, hn.noSlash, hkids, hes, hnew, hstops⟩

/-- Behind the last entry all answers are empty. -/
theorem scan_behind {behind : List Byte} {fuel : Nat} (hopen : shared.eofDirectory = false)
    (hpath : dir.dirPath = 47 :: d) (hsplit : A.bytes.drop dir.curPos = behind)
    (hstops : Stops d behind) (hfuel : behind.length / 512 ≤ fuel) :
    ∃ dir' shared', scan A.bytes (more A.bytes d) d.length (fuel + 1) dir shared =
        some ([], dir', shared') ∧ dir'.fd = dir.fd ∧ Answers A d dir' shared' [] := by
  rcases hstops with ⟨rfl, z, rfl⟩ | ⟨hd, hstop⟩
  · rw [List.length_replicate] at hfuel
    by_cases hprev : dir.prevFile = []
    · obtain ⟨dir', shared', hscan, hfd, heof⟩ := scan_zeros z shared hsplit hprev
        (by omega : z < fuel + 1)
      exact ⟨dir', shared', hscan, hfd, .done heof⟩
    · cases z with
      | zero =>
        exact ⟨_, _, scan_stop shared fuel (more_end (by simpa using hsplit)), rfl, .done rfl⟩
      | succ z =>
        refine ⟨_, _, scan_zero shared fuel hsplit hprev, rfl, ?_⟩
        have hnext : A.bytes.drop (dir.curPos + 512) = List.replicate (512 * z) 0 := by
          rw [drop_zero hsplit, show 512 * (z + 1) - 512 = 512 * z by omega]
        exact @Answers.reading _ _ _ _ _ [] [] _ hopen (Or.inl rfl)
          ⟨hpath, hnext, by simp, by simp, .nil [], by simp, Or.inl ⟨rfl, z, rfl⟩⟩
  · have hmore : more A.bytes d dir.curPos = false := by
      simp only [more, hd, if_false]
      rw [← Bool.not_eq_true, contains_iff, headerName, strAt, hsplit]
      exact hstop
    exact ⟨_, _, scan_stop shared fuel hmore, rfl, .done rfl⟩

theorem scan_answers {skip es : List Entry} {behind : List Byte}
    (hopen : shared.eofDirectory = false) (hc : Cursor A d dir rest skip es behind) :
    ∃ dir' shared', scan A.bytes (more A.bytes d) d.length (A.bytes.length + 1) dir shared =
        some (rest.headD [], dir', shared') ∧ dir'.fd = dir.fd ∧ Answers A d dir' shared' rest.tail := by
  have hfuel := fuel_le hc
  have hdrop := drop_skip hc
  obtain ⟨shared', heof, hskip⟩ := scan_repeats (A.bytes.length - skip.length + 1) skip shared hc.split
    hc.repeats hc.noSlash
  rw [show A.bytes.length - skip.length + 1 + skip.length = A.bytes.length + 1 by omega] at hskip
  rw [hskip]
  cases hc.lists with
  | nil =>
    exact scan_behind (heof.trans hopen) hc.path (by simpa using hdrop) hc.stops (by omega)
  | @file _ n _ _ _ hn he hnew hes =>
    have hne := List.ne_of_not_mem_cons hc.new
    have hnone : ∀ q ∈ ([] : List Entry), Under d n q.name := by simp
    exact scan_child hn hne.symm (heof.trans hopen) hc.path (by simpa using hdrop) (Or.inl he) hnone
      hes hnew hc.stops
  | dir hn he hempty hnew hkids hes =>
    have hne := List.ne_of_not_mem_cons hc.new
    refine scan_child hn hne.symm (heof.trans hopen) hc.path (by simpa using hdrop)
      (Or.inr (by simp [he])) ?_ hes hnew hc.stops
    intro q hq
    obtain ⟨m, -, -, hu⟩ := hkids.under q hq
    exact Or.inr hu.path_le

/-- One call gives the next answer. -/
theorem readdir_answers {s : Dirs} {t : Slot} (hflag : s.openDirectories t dir.fd = true)
    (h : Answers A d dir (s.dirIntArr dir.fd) rest) :
    ∃ dir' s', sysReaddir A.bytes s t dir = some (rest.headD [], dir', s') ∧ dir'.fd = dir.fd ∧
      s'.openDirectories t dir'.fd = true ∧ Answers A d dir' (s'.dirIntArr dir'.fd) rest.tail := by
  cases h with
  | done heof =>
    refine ⟨dir, s, ?_, rfl, hflag, .done heof⟩
    simp [sysReaddir, hflag, heof]
  | @own names es behind hd hopen hprev hc =>
    have hread : sysReaddir A.bytes s t dir = some ([46], { dir with prevFile := [46] },
        { s with dirIntArr := Function.update s.dirIntArr dir.fd
                  { s.dirIntArr dir.fd with prevFile := [] } }) := by
      have hpath : dir.dirPath = 47 :: d := hc.path
      have hne : ¬ strcmp (47 :: d) [47] = 0 := by
        rw [strcmp_eq_zero]
        simpa using hd
      rw [sysReaddir, hflag, hopen, getFileName, hpath, if_neg hne, if_pos hprev]
      rfl
    refine ⟨_, _, hread, rfl, hflag, .reading ?_ (Or.inr (by simp)) hc⟩
    simpa using hopen
  | @reading _ skip es behind hopen hprev hc =>
    obtain ⟨dir', shared', hscan, hfd, hans⟩ := scan_answers hopen hc
    refine ⟨dir', { s with dirIntArr := Function.update s.dirIntArr dir.fd shared' }, ?_, hfd, ?_, ?_⟩
    · rw [sysReaddir, hflag, hopen, getFileName_eq A.bytes _ hc.path hprev, hscan]
      rfl
    · rwa [hfd]
    · rw [hfd]
      simpa using hans

end

/-! ## Opening -/

def listing (A : Archive) (d : List Byte) : List (List Byte) :=
  if d = [] then Archive.children A d else [46] :: Archive.children A d

theorem freeDesc_open {a : List Byte} {s : Dirs} {i : Fin 100} (hi : freeDesc s = some i) (t : Slot) :
    sysOpendir a s t [47] = some (some (openDesc s t [47] 0 i).1, (openDesc s t [47] 0 i).2) := by
  have hroot : strcmp [47] [47] = 0 := (strcmp_eq_zero _ _).mpr rfl
  rw [sysOpendir, if_pos hroot, hi]

theorem openDesc_flag (s : Dirs) (t : Slot) (dirname : List Byte) (start : Nat) (i : Fin 100) :
    (openDesc s t dirname start i).2.openDirectories t i = true := by
  simp [openDesc]

theorem openDesc_record (s : Dirs) (t : Slot) (dirname : List Byte) (start : Nat) (i : Fin 100) :
    (openDesc s t dirname start i).2.dirIntArr i = ⟨i, start, start, false, dirname, []⟩ := by
  simp [openDesc]

section

variable {A : Archive} {d : List Byte} {pre kids post : List Entry} {e : Entry}
  {names : List (List Byte)}

/-- The search ends behind the header of the directory. -/
theorem block_locate (h : Block d A.entries pre e kids post names) :
    A.locate d = some ((pre.flatMap Entry.bytes).length + 512) := by
  have hidx : A.entries.findIdx? (fun q => q.name = d) = some pre.length := by
    have hpre : pre.findIdx? (fun q => q.name = d) = none := by
      simp only [List.findIdx?_eq_none_iff, decide_eq_false_iff_not]
      intro q hq hname
      exact h.before q hq (hname ▸ List.prefix_refl d)
    rw [h.split, List.findIdx?_append, hpre, List.findIdx?_cons]
    simp [h.name]
  rw [Archive.locate, hidx, Option.map_some, Archive.offset, offsetFrom, h.split, List.take_left,
    Nat.zero_add]

/-- What stands there. -/
theorem block_drop (h : Block d A.entries pre e kids post names) :
    A.bytes.drop ((pre.flatMap Entry.bytes).length + 512) = kids.flatMap Entry.bytes ++
      (post.flatMap Entry.bytes ++ List.replicate (512 * A.zeroBlocks) 0) := by
  have hbytes : e.bytes = e.header := by
    simp [Entry.bytes, h.empty, padding]
  rw [Archive.bytes, h.split, ← List.drop_drop]
  simp only [List.flatMap_append, List.flatMap_cons, List.append_assoc, List.drop_left, hbytes]
  rw [← header_length e, List.drop_left]

/-- A directory ends before the header of an entry outside it or before a zero block. -/
theorem block_stops (h : Block d A.entries pre e kids post names) (hd : d ≠ []) :
    Stops d (post.flatMap Entry.bytes ++ List.replicate (512 * A.zeroBlocks) 0) := by
  refine Or.inr ⟨hd, ?_⟩
  cases post with
  | nil =>
    have htwo := A.two_le
    rw [List.flatMap_nil, List.nil_append,
      show 512 * A.zeroBlocks = 512 * A.zeroBlocks - 1 + 1 by omega, List.replicate_succ]
    simpa using hd
  | cons q post =>
    have hname : headerName ((q :: post).flatMap Entry.bytes ++
        List.replicate (512 * A.zeroBlocks) 0) 0 = q.name :=
      headerName_entry (by rw [List.drop_zero, List.flatMap_cons, List.append_assoc])
    rw [headerName, strAt, List.drop_zero] at hname
    rw [hname]
    exact h.behind q List.mem_cons_self

end

/-- With a descriptor to spare a directory is opened, and all its names are still to come. -/
theorem opendir_answers {A : Archive} (hA : IsTree A) {d : List Byte} (hd : IsDir A d) {s : Dirs}
    (hfree : (freeDesc s).isSome) (t : Slot) :
    ∃ dir s', sysOpendir A.bytes s t (47 :: d) = some (some dir, s') ∧
      s'.openDirectories t dir.fd = true ∧ Answers A d dir (s'.dirIntArr dir.fd) (listing A d) := by
  obtain ⟨i, hi⟩ := Option.isSome_iff_exists.mp hfree
  obtain ⟨names, hl⟩ := hA.tree
  rcases hd with rfl | ⟨hlast, hmem⟩
  · refine ⟨_, _, freeDesc_open hi t, openDesc_flag s t [47] 0 i, ?_⟩
    have hnames : listing A [] = names := hl.children
    rw [hnames]
    have hnew : [] ∉ names := fun hm => (hl.isName [] hm).pos rfl
    refine @Answers.reading _ _ _ _ _ [] A.entries _ ?_ (Or.inl rfl)
      ⟨rfl, rfl, List.not_mem_nil, by simp, hl, hnew, Or.inl ⟨rfl, A.zeroBlocks, rfl⟩⟩
    change ((openDesc s t [47] 0 i).2.dirIntArr i).eofDirectory = false
    rw [openDesc_record]
  · obtain ⟨pre, e, kids, post, below, hb⟩ := hl.block hlast hmem
    have hne : d ≠ [] := by
      rintro rfl
      cases hlast
    have hroot : ¬ strcmp (47 :: d) [47] = 0 := by
      rw [strcmp_eq_zero]
      simpa using hne
    have hopen : sysOpendir A.bytes s t (47 :: d) =
        some (some (openDesc s t (47 :: d) ((pre.flatMap Entry.bytes).length + 512) i).1,
          (openDesc s t (47 :: d) ((pre.flatMap Entry.bytes).length + 512) i).2) := by
      rw [sysOpendir, if_neg hroot, sysOpendirWalk, List.tail_cons, A.headerWalk_bytes hne,
        block_locate hb, Option.map_some, hi]
    refine ⟨_, _, hopen, openDesc_flag _ _ _ _ _, ?_⟩
    have hnames : listing A d = [46] :: below := by
      rw [listing, if_neg hne, hb.children]
    have hnew : [46] ∉ below := fun hm => (hb.lists.isName [46] hm).notDot rfl
    rw [hnames]
    have hsplit := block_drop hb
    refine @Answers.own _ _ _ _ _ kids _ hne ?_ rfl
      ⟨rfl, hsplit, (by decide : (47 : Byte) ∉ [46]), by simp, hb.lists, hnew, block_stops hb hne⟩
    change ((openDesc s t (47 :: d) _ i).2.dirIntArr i).eofDirectory = false
    rw [openDesc_record]

/-! ## Repeated calls -/

/-- Calls of task `t` on its record, between any calls on other descriptors; the
answers so far, the record and the state. -/
inductive Reads (a : List Byte) (t : Slot) (dir₀ : Dir) (s₀ : Dirs) :
    List (List Byte) → Dir → Dirs → Prop
  | start : Reads a t dir₀ s₀ [] dir₀ s₀
  | read {outs : List (List Byte)} {dir dir' : Dir} {s s' : Dirs} {buff : List Byte}
      (h : Reads a t dir₀ s₀ outs dir s) (hr : sysReaddir a s t dir = some (buff, dir', s')) :
      Reads a t dir₀ s₀ (outs ++ [buff]) dir' s'
  | other {outs : List (List Byte)} {dir other other' : Dir} {s s' : Dirs} {u : Slot} {buff : List Byte}
      (h : Reads a t dir₀ s₀ outs dir s) (hfd : other.fd ≠ dir.fd)
      (hr : sysReaddir a s u other = some (buff, other', s')) : Reads a t dir₀ s₀ outs dir s'

/-- A call changes the shared record of its own descriptor only. -/
theorem sysReaddir_frame {a : List Byte} {s s' : Dirs} {t : Slot} {dir dir' : Dir} {buff : List Byte}
    (h : sysReaddir a s t dir = some (buff, dir', s')) {i : Fin 100} (hi : i ≠ dir.fd) :
    s'.dirIntArr i = s.dirIntArr i := by
  rw [sysReaddir] at h
  split at h
  · obtain ⟨-, -, rfl⟩ := h
    rfl
  · split at h
    · obtain ⟨-, -, rfl⟩ := h
      rfl
    · rw [Option.map_eq_some_iff] at h
      obtain ⟨r, -, hr⟩ := h
      obtain ⟨-, -, rfl⟩ := hr
      exact Function.update_of_ne hi _ _

theorem Reads.answers {A : Archive} {d : List Byte} {t : Slot} {dir₀ dir : Dir} {s₀ s : Dirs}
    {all outs : List (List Byte)} (hflag : s₀.openDirectories t dir₀.fd = true)
    (hstart : Answers A d dir₀ (s₀.dirIntArr dir₀.fd) all) (h : Reads A.bytes t dir₀ s₀ outs dir s) :
    (∀ k (hk : k < outs.length), outs.get ⟨k, hk⟩ = all.getD k []) ∧
      s.openDirectories t dir.fd = true ∧
      Answers A d dir (s.dirIntArr dir.fd) (all.drop outs.length) := by
  induction h with
  | start => exact ⟨by simp, hflag, hstart⟩
  | @read outs dir dir' s s' buff h hr ih =>
    obtain ⟨hall, hopen, hans⟩ := ih
    obtain ⟨dir₁, s₁, hread, -, hopen', hans'⟩ := readdir_answers hopen hans
    obtain ⟨rfl, rfl, rfl⟩ : buff = (all.drop outs.length).headD [] ∧ dir' = dir₁ ∧ s' = s₁ := by
      simpa using hr.symm.trans hread
    refine ⟨?_, hopen', ?_⟩
    · intro k hk
      by_cases hlast : k < outs.length
      · simpa [List.getElem_append_left hlast] using hall k hlast
      · have hk' : k = outs.length := by
          rw [List.length_append, List.length_singleton] at hk
          omega
        subst hk'
        simp [List.getD, List.head?_drop]
    · rw [List.length_append, List.length_singleton, ← List.tail_drop]
      exact hans'
  | @other outs dir o o' s s' u buff h hfd hr ih =>
    obtain ⟨hall, hopen, hans⟩ := ih
    refine ⟨hall, ?_, ?_⟩
    · rw [(sysReaddir_flags hr).2]
      exact hopen
    · rw [sysReaddir_frame hr hfd.symm]
      exact hans

/-- Whatever happens on other descriptors, the calls on an opened directory answer
`.`, except for the root, then the names of the children in archive order, each
once, and then only empty names; and every further call has an answer. -/
theorem directory_listing (A : Archive) (hA : IsTree A) (d : List Byte) (hd : IsDir A d) (s : Dirs)
    (hfree : (freeDesc s).isSome) (t : Slot) :
    (Archive.children A d).Nodup ∧ [] ∉ Archive.children A d ∧ [46] ∉ Archive.children A d ∧
    ∃ dir s', sysOpendir A.bytes s t (47 :: d) = some (some dir, s') ∧
      ∀ outs dir' s'', Reads A.bytes t dir s' outs dir' s'' →
        (∀ k (hk : k < outs.length), outs.get ⟨k, hk⟩ = (listing A d).getD k []) ∧
        (sysReaddir A.bytes s'' t dir').isSome := by
  obtain ⟨es, hl⟩ := children_lists hA hd
  have hnames := hl.isName
  refine ⟨hl.names_nodup, fun hm => (hnames [] hm).pos rfl, fun hm => (hnames [46] hm).notDot rfl, ?_⟩
  obtain ⟨dir, s', hopen, hflag, hstart⟩ := opendir_answers hA hd hfree t
  refine ⟨dir, s', hopen, ?_⟩
  intro outs dir' s'' h
  obtain ⟨hall, hflag', hans⟩ := h.answers hflag hstart
  obtain ⟨_, _, hread, -⟩ := readdir_answers hflag' hans
  exact ⟨hall, by rw [hread]; rfl⟩

/-- A directory `b` with the file `x`, and the file `c`. -/
def smallTree : Archive where
  entries := [plainEntry [98, 47] [] ⟨by decide, by decide, by decide⟩,
    plainEntry [98, 47, 120] [] ⟨by decide, by decide, by decide⟩,
    plainEntry [99] [] ⟨by decide, by decide, by decide⟩]
  zeroBlocks := 2
  two_le := two_blocks
  small := by decide +kernel

theorem isName_letter {c : Byte} (h : c ≠ 47) (h' : c ≠ 46) : IsName [c] :=
  ⟨by simp, by simpa using h.symm, by simpa using h'⟩

theorem smallTree_isTree : IsTree smallTree where
  tree := ⟨[[98], [99]], @Lists.dir [] [98] _ [_] _ _ _ (isName_letter (by decide) (by decide)) rfl rfl
    (by decide) (.file (n := [120]) (isName_letter (by decide) (by decide)) rfl (by decide) (.nil _))
    (.file (n := [99]) (isName_letter (by decide) (by decide)) rfl (by decide) (.nil _))⟩
  short := by decide

theorem smallTree_isDir : IsDir smallTree [98, 47] := Or.inr ⟨rfl, _, List.mem_cons_self, rfl⟩

/-- Three calls on `b` in `smallTree` answer `.`, `x` and the empty name. -/
theorem directory_listing_smallTree : ∃ dir s', sysOpendir smallTree.bytes Dirs.start 0 [47, 98, 47] =
    some (some dir, s') ∧ ∀ outs dir' s'', Reads smallTree.bytes 0 dir s' outs dir' s'' →
      outs.length = 3 → outs = [[46], [120], []] := by
  obtain ⟨-, -, -, dir, s', hopen, hreads⟩ := directory_listing smallTree smallTree_isTree [98, 47]
    smallTree_isDir Dirs.start (by decide) 0
  refine ⟨dir, s', hopen, ?_⟩
  intro outs dir' s'' h hlen
  have hlisting : listing smallTree [98, 47] = [[46], [120]] := by decide
  obtain ⟨hall, -⟩ := hreads outs dir' s'' h
  rw [hlisting] at hall
  refine List.ext_get hlen ?_
  intro k hk hk'
  rw [hall k hk]
  match k, hk' with
  | 0, _ => rfl
  | 1, _ => rfl
  | 2, _ => rfl

end Listing
