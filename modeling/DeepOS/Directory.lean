import DeepOS.TaskTable
import DeepOS.Tarfs
import DeepOS.Transition

/-!
# Directory descriptors

`sys_opendir`, `sys_readdir` and `sys_closedir`. A descriptor is spread over
three places: the allocation array `dirDesc`, the shared records `dirIntArr`, and
a flag in the task. The caller keeps a record of its own, which `sys_readdir`
reads and advances. Descriptors outside the arrays are not modelled.
-/
namespace Directory

open TaskTable CString Strings Tarfs

structure Dir where
  fd : Fin 100
  startPos : Nat
  curPos : Nat
  eofDirectory : Bool
  dirPath : List Byte
  prevFile : List Byte
  deriving DecidableEq, Repr

structure Dirs where
  dirDesc : Fin 100 → Bool
  dirIntArr : Fin 100 → Dir
  openDirectories : Slot → Fin 100 → Bool

def Dirs.start : Dirs where
  dirDesc := fun _ => false
  dirIntArr := fun _ => ⟨0, 0, 0, false, [], []⟩
  openDirectories := fun _ _ => false

/-! ## Reading a directory -/

/-- The characters of `str1` from `lenAdd` on, up to the next slash. -/
def fetchName (str1 : List Byte) (lenAdd : Nat) : List Byte :=
  (str1.drop lenAdd).takeWhile (· ≠ 47)

/-- The loop of `getFileName` on the caller's record and the shared one. -/
def scanDir (a path : List Byte) : Nat → Dir → Dir → Option (List Byte × Dir × Dir)
  | 0, _, _ => none
  | fuel + 1, dir, shared =>
    let name := headerName a dir.curPos
    let start := nextHeader a dir.curPos
    if contains name path then
      let buff := fetchName name path.length
      if strcmp buff dir.prevFile ≠ 0 then
        some (buff, { dir with prevFile := buff, curPos := start },
          { shared with prevFile := buff, curPos := start })
      else scanDir a path fuel { dir with curPos := start } { shared with curPos := start }
    else some ([], { dir with eofDirectory := true }, { shared with eofDirectory := true })

def getRootSubdirectories (a : List Byte) : Nat → Dir → Dir → Option (List Byte × Dir × Dir)
  | 0, _, _ => none
  | fuel + 1, dir, shared =>
    let start := nextHeader a dir.curPos
    if dir.curPos < a.length then
      let buff := fetchName (headerName a dir.curPos) 0
      if strcmp buff dir.prevFile ≠ 0 then
        some (buff, { dir with prevFile := buff, curPos := start },
          { shared with prevFile := buff, curPos := start })
      else getRootSubdirectories a fuel { dir with curPos := start } { shared with curPos := start }
    else some ([], { dir with eofDirectory := true }, { shared with eofDirectory := true })

/-- The first answer for a directory other than the root is `.`; the shared record
gets an empty name there. -/
def getFileName (a : List Byte) (dir shared : Dir) : Option (List Byte × Dir × Dir) :=
  if strcmp dir.dirPath [47] = 0 then getRootSubdirectories a (a.length + 1) dir shared
  else if dir.prevFile = [] then
    some ([46], { dir with prevFile := [46] }, { shared with prevFile := [] })
  else scanDir a dir.dirPath.tail (a.length + 1) dir shared

def sysReaddir (a : List Byte) (s : Dirs) (t : Slot) (dir : Dir) :
    Option (List Byte × Dir × Dirs) :=
  if !s.openDirectories t dir.fd then some ([], dir, s)
  else if (s.dirIntArr dir.fd).eofDirectory then some ([], dir, s)
  else (getFileName a dir (s.dirIntArr dir.fd)).map fun r =>
    (r.1, r.2.1, { s with dirIntArr := Function.update s.dirIntArr dir.fd r.2.2 })

/-! ## Opening and closing -/

def freeDesc (s : Dirs) : Option (Fin 100) :=
  (List.finRange 100).find? fun i => 3 ≤ i.val ∧ s.dirDesc i = false

def openDesc (s : Dirs) (t : Slot) (dirname : List Byte) (start : Nat) (i : Fin 100) : Dir × Dirs :=
  let dir := ⟨i, start, start, false, dirname, []⟩
  (dir,
    { dirDesc := Function.update s.dirDesc i true
      dirIntArr := Function.update s.dirIntArr i dir
      openDirectories := Function.update s.openDirectories t
        (Function.update (s.openDirectories t) i true) })

/-- The result is the caller's record, or `none` for `-1`. With no descriptor left
a call for the root goes on to the search for an empty name. -/
def sysOpendir (a : List Byte) (s : Dirs) (t : Slot) (dirname : List Byte) :
    Option (Option Dir × Dirs) :=
  match (if strcmp dirname [47] = 0 then freeDesc s else none) with
  | some i => let r := openDesc s t dirname 0 i
    some (some r.1, r.2)
  | none => (sysOpendirWalk a dirname).map fun w =>
    match w.data, freeDesc s with
    | some start, some i => let r := openDesc s t dirname start i
      (some r.1, r.2)
    | _, _ => (none, s)

/-- The flag of the task is read and not cleared. -/
def sysClosedir (s : Dirs) (fd : Fin 100) : Dirs :=
  { s with dirDesc := Function.update s.dirDesc fd false }

/-! ## The lifetime of a descriptor -/

/-- The kernel's state, and what each task has opened and not closed since. -/
structure Session where
  dirs : Dirs
  held : Slot → Fin 100 → Bool

def Session.start : Session := ⟨Dirs.start, fun _ _ => false⟩

inductive Op where
  | opendir (t : Slot) (dirname : List Byte)
  | readdir (t : Slot) (dir : Dir)
  | closedir (t : Slot) (fd : Fin 100)

def hold (held : Slot → Fin 100 → Bool) (t : Slot) (i : Fin 100) (b : Bool) : Slot → Fin 100 → Bool :=
  Function.update held t (Function.update (held t) i b)

def step (a : List Byte) (s : Session) : Op → Option Session
  | .opendir t dirname => (sysOpendir a s.dirs t dirname).map fun r =>
    match r.1 with
    | some dir => ⟨r.2, hold s.held t dir.fd true⟩
    | none => ⟨r.2, s.held⟩
  | .readdir t dir => (sysReaddir a s.dirs t dir).map fun r => ⟨r.2.2, s.held⟩
  | .closedir t fd => some ⟨sysClosedir s.dirs fd, hold s.held t fd false⟩

/-- A descriptor that was closed keeps its flag. The runs considered do not meet
such a flag: nobody reads through one, and no descriptor is handed out that still
has one of another task. -/
def Meets (s : Session) : Op → Prop
  | .opendir t _ => ∀ i, freeDesc s.dirs = some i → ∀ u, u ≠ t → s.dirs.openDirectories u i = false
  | .readdir t dir => s.dirs.openDirectories t dir.fd = true → s.dirs.dirDesc dir.fd = true
  | .closedir _ _ => True

/-- At most one task has the flag of a descriptor, and while the descriptor is
allocated that task holds it. -/
structure DescInv (s : Session) : Prop where
  one : ∀ i t u, s.dirs.openDirectories t i = true → s.dirs.openDirectories u i = true → t = u
  held : ∀ i t, s.dirs.openDirectories t i = true → s.dirs.dirDesc i = true → s.held t i = true

theorem hold_apply (held : Slot → Fin 100 → Bool) (t u : Slot) (i j : Fin 100) (b : Bool) :
    hold held t i b u j = if u = t ∧ j = i then b else held u j := by
  by_cases hu : u = t
  · subst hu
    by_cases hj : j = i
    · subst hj
      simp [hold]
    · simp [hold, hj]
  · simp [hold, hu]

/-- What a successful `sys_opendir` does. -/
theorem sysOpendir_cases {a : List Byte} {s s' : Dirs} {t : Slot} {dirname : List Byte}
    {r : Option Dir} (h : sysOpendir a s t dirname = some (r, s')) :
    (r = none ∧ s' = s) ∨ ∃ start i, freeDesc s = some i ∧
      r = some (openDesc s t dirname start i).1 ∧ s' = (openDesc s t dirname start i).2 := by
  rw [sysOpendir] at h
  split at h
  · rename_i i hi
    split at hi
    · obtain ⟨rfl, rfl⟩ := Prod.mk.inj (Option.some.inj h)
      exact Or.inr ⟨0, i, hi, rfl, rfl⟩
    · cases hi
  · rw [Option.map_eq_some_iff] at h
    obtain ⟨w, -, hr⟩ := h
    split at hr
    · rename_i start i _ hi
      obtain ⟨rfl, rfl⟩ := Prod.mk.inj hr
      exact Or.inr ⟨start, i, hi, rfl, rfl⟩
    · obtain ⟨rfl, rfl⟩ := Prod.mk.inj hr
      exact Or.inl ⟨rfl, rfl⟩

/-- `sys_readdir` touches no allocation and no flag. -/
theorem sysReaddir_flags {a : List Byte} {s s' : Dirs} {t : Slot} {dir dir' : Dir} {buff : List Byte}
    (h : sysReaddir a s t dir = some (buff, dir', s')) :
    s'.dirDesc = s.dirDesc ∧ s'.openDirectories = s.openDirectories := by
  rw [sysReaddir] at h
  split at h
  · obtain ⟨-, -, rfl⟩ := h
    exact ⟨rfl, rfl⟩
  · split at h
    · obtain ⟨-, -, rfl⟩ := h
      exact ⟨rfl, rfl⟩
    · rw [Option.map_eq_some_iff] at h
      obtain ⟨r, -, hr⟩ := h
      obtain ⟨-, -, rfl⟩ := hr
      exact ⟨rfl, rfl⟩

/-- An answer other than the empty one needs the flag. -/
theorem sysReaddir_open {a : List Byte} {s s' : Dirs} {t : Slot} {dir dir' : Dir} {buff : List Byte}
    (h : sysReaddir a s t dir = some (buff, dir', s')) (hb : buff ≠ []) :
    s.openDirectories t dir.fd = true := by
  rw [sysReaddir] at h
  split at h
  · obtain ⟨rfl, -⟩ := h
    exact absurd rfl hb
  · rename_i hopen
    simpa using hopen

theorem step_inv {a : List Byte} {s s' : Session} {op : Op} (hm : Meets s op) (h : DescInv s)
    (hs : step a s op = some s') : DescInv s' := by
  cases op with
  | opendir t dirname =>
    simp only [step, Option.map_eq_some_iff] at hs
    obtain ⟨⟨r, d⟩, hopen, rfl⟩ := hs
    rcases sysOpendir_cases hopen with ⟨rfl, rfl⟩ | ⟨start, i, hi, rfl, rfl⟩
    · exact h
    · have hother := hm i hi
      have hflag : ∀ u j, (openDesc s.dirs t dirname start i).2.openDirectories u j =
          if u = t ∧ j = i then true else s.dirs.openDirectories u j :=
        fun u j => hold_apply s.dirs.openDirectories t u i j true
      constructor
      · intro j u v hu hv
        simp only [hflag] at hu hv
        by_cases hj : j = i
        · subst hj
          have ht : ∀ w, (if w = t ∧ j = j then true else s.dirs.openDirectories w j) = true →
              w = t := by
            intro w hw
            by_contra hne
            rw [if_neg (fun hc => hne hc.1), hother w hne] at hw
            cases hw
          exact (ht u hu).trans (ht v hv).symm
        · rw [if_neg (fun hc => hj hc.2)] at hu hv
          exact h.one j u v hu hv
      · intro j u hu hd
        simp only [hflag] at hu
        change hold s.held t i true u j = true
        rw [hold_apply]
        by_cases hc : u = t ∧ j = i
        · rw [if_pos ⟨hc.1, hc.2⟩]
        · rw [if_neg hc] at hu
          have hj : j ≠ i := by
            rintro rfl
            rw [hother u (fun hut => hc ⟨hut, rfl⟩)] at hu
            cases hu
          rw [if_neg (fun hcc => hj hcc.2)]
          refine h.held j u hu ?_
          simpa [openDesc, hj] using hd
  | readdir t dir =>
    simp only [step, Option.map_eq_some_iff] at hs
    obtain ⟨⟨buff, dir', d⟩, hread, rfl⟩ := hs
    obtain ⟨hdesc, hflags⟩ := sysReaddir_flags hread
    constructor
    · intro i u v hu hv
      rw [hflags] at hu hv
      exact h.one i u v hu hv
    · intro i u hu hd
      rw [hflags] at hu
      rw [hdesc] at hd
      exact h.held i u hu hd
  | closedir t fd =>
    simp only [step, Option.some.injEq] at hs
    subst hs
    refine ⟨h.one, ?_⟩
    intro i u hu hd
    have hi : i ≠ fd := by
      rintro rfl
      simp [sysClosedir] at hd
    change hold s.held t fd false u i = true
    rw [hold_apply, if_neg (fun hc => hi hc.2)]
    refine h.held i u hu ?_
    simpa [sysClosedir, hi] using hd

/-- In every run that does not meet a stale flag, a task gets an entry only from a
descriptor it holds, and no descriptor passes the check of two tasks. -/
theorem directory_lifetime (a : List Byte) (ops : List Op) (s : Session)
    (hm : Transition.Along (step a) Meets Session.start ops)
    (hr : Transition.run (step a) Session.start ops = some s) :
    (∀ t dir buff dir' d, Meets s (.readdir t dir) →
      sysReaddir a s.dirs t dir = some (buff, dir', d) → buff ≠ [] → s.held t dir.fd = true) ∧
    ∀ i t u, s.dirs.openDirectories t i = true → s.dirs.openDirectories u i = true → t = u := by
  have hstart : DescInv Session.start := by
    constructor
    · intro i t u ht
      cases ht
    · intro i t ht
      cases ht
  have hinv : DescInv s := Transition.run_invariant (step a) (C := Meets) (P := DescInv)
    (fun s op s' hm h hs => step_inv hm h hs) hstart hm hr
  refine ⟨?_, hinv.one⟩
  intro t dir buff dir' d hmeets hread hbuff
  have hopen := sysReaddir_open hread hbuff
  exact hinv.held dir.fd t hopen (hmeets hopen)

def rootDir : Dir := ⟨3, 0, 0, false, [47], []⟩

/-- A task that has opened the root and holds it reads the first name in it. -/
theorem directory_lifetime_first_name : ∃ s,
    Transition.run (step oneFile.bytes) Session.start [.opendir 0 [47]] = some s ∧
    (∃ r, sysReaddir oneFile.bytes s.dirs 0 rootDir = some r ∧ r.1 = [97]) ∧
    s.held 0 3 = true := by
  have hend : (Transition.run (step oneFile.bytes) Session.start [.opendir 0 [47]]).map
      (fun s => (s.dirs.dirDesc 3, (sysReaddir oneFile.bytes s.dirs 0 rootDir).map Prod.fst)) =
      some (true, some [97]) := by decide +kernel
  obtain ⟨s, hrun, hknown⟩ := Option.map_eq_some_iff.mp hend
  obtain ⟨hdesc, hread⟩ := Prod.mk.inj hknown
  obtain ⟨⟨buff, dir', d⟩, hr, hbuff⟩ := Option.map_eq_some_iff.mp hread
  refine ⟨s, hrun, ⟨_, hr, hbuff⟩, ?_⟩
  have hmeets : Transition.Along (step oneFile.bytes) Meets Session.start [.opendir 0 [47]] :=
    ⟨fun _ _ _ _ => rfl, fun _ _ => trivial⟩
  exact (directory_lifetime oneFile.bytes _ s hmeets hrun).1 0 rootDir buff dir' d
    (fun _ => hdesc) hr (by rw [show buff = [97] from hbuff]; decide)

/-- A closed descriptor is still read through, and once it has been handed out
again it passes the check of both tasks. -/
theorem closed_descriptor_in_use :
    (∃ s, Transition.run (step oneFile.bytes) Session.start [.opendir 0 [47], .closedir 0 3] = some s ∧
      s.held 0 3 = false ∧ (sysReaddir oneFile.bytes s.dirs 0 rootDir).map Prod.fst = some [97]) ∧
    ∃ s, Transition.run (step oneFile.bytes) Session.start
        [.opendir 0 [47], .closedir 0 3, .opendir 1 [47]] = some s ∧
      s.dirs.openDirectories 0 3 = true ∧ s.dirs.openDirectories 1 3 = true := by
  constructor
  · have hend : (Transition.run (step oneFile.bytes) Session.start [.opendir 0 [47], .closedir 0 3]).map
        (fun s => (s.held 0 3, (sysReaddir oneFile.bytes s.dirs 0 rootDir).map Prod.fst)) =
        some (false, some [97]) := by decide +kernel
    obtain ⟨s, hrun, hknown⟩ := Option.map_eq_some_iff.mp hend
    obtain ⟨hheld, hread⟩ := Prod.mk.inj hknown
    exact ⟨s, hrun, hheld, hread⟩
  · have hend : (Transition.run (step oneFile.bytes) Session.start
        [.opendir 0 [47], .closedir 0 3, .opendir 1 [47]]).map
        (fun s => (s.dirs.openDirectories 0 3, s.dirs.openDirectories 1 3)) = some (true, true) := by
      decide +kernel
    obtain ⟨s, hrun, hknown⟩ := Option.map_eq_some_iff.mp hend
    obtain ⟨h0, h1⟩ := Prod.mk.inj hknown
    exact ⟨s, hrun, h0, h1⟩

end Directory
