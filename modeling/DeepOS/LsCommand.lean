import DeepOS.Ls
import DeepOS.WorkingDir

/-!
# The command `ls`

Without an argument it lists the working directory, else the directory that `cd` would go to.
What is no directory prints nothing: a path with a slash at the end begins no name unless it is
an entry itself.
-/
namespace LsCommand

open TaskTable CString Strings Tarfs FileTree Listing Ls WorkingDir
open Directory (Dirs fetchName)
open ExecStorage (copyInto_of_lt)

/-- `main` of `ls`, with `argv[1]` if there is one, and `funcForLS`: the names that are printed. -/
def ls (a : List Byte) (s : Session) : Option (List Byte) → Option (List (List Byte))
  | none => (pwd s).bind (sysLs a)
  | some fname => ((pwd s).map fun cwd => dirnameWithEndSlash (getAbsoluteFilePath cwd fname)).bind (sysLs a)

/-! ## Paths that begin a name -/

/-- In the name of a child no slash follows. -/
theorem not_prefix_name {p n d : List Byte} (hn : IsName n) (hd : d.getLast? = some 47) (hlen : p.length < d.length) :
    ¬ d <+: p ++ n := by
  intro hpre
  have hp : p <+: d := List.prefix_of_prefix_length_le (List.prefix_append p n) hpre hlen.le
  obtain ⟨m, rfl⟩ := hp
  have hm : m <+: n := (List.prefix_append_right_inj p).mp hpre
  have hne : m ≠ [] := by
    rintro rfl
    simp at hlen
  rw [List.getLast?_append_of_ne_nil _ hne] at hd
  exact hn.noSlash (hm.subset (List.mem_of_getLast? hd))

/-- A path into a directory's entries is the path of one of them. -/
theorem dir_mem {p : List Byte} {es : List Entry} {names : List (List Byte)} (h : Lists p es names) {d : List Byte}
    (hd : d.getLast? = some 47) (hlen : p.length < d.length) {q : Entry} (hq : q ∈ es) (hpre : d <+: q.name) :
    ∃ e ∈ es, e.name = d := by
  induction h generalizing q with
  | nil p => exact absurd hq List.not_mem_nil
  | @file p n e es names hn he hnew hes ih =>
    rcases List.mem_cons.mp hq with rfl | hq
    · rw [he] at hpre
      exact absurd hpre (not_prefix_name hn hd hlen)
    · obtain ⟨e', he', hname⟩ := ih hlen hq hpre
      exact ⟨e', List.mem_cons_of_mem e he', hname⟩
  | @dir p n e kids es below names hn he hempty hnew hkids hes ihk ih =>
    have hown : d <+: p ++ n ++ [47] → e.name = d := by
      intro hpath
      rcases List.prefix_concat_iff.mp hpath with heq | hshort
      · rw [he, heq]
      · exact absurd hshort (not_prefix_name hn hd hlen)
    rcases List.mem_cons.mp hq with rfl | hq
    · exact ⟨_, List.mem_cons_self, hown (he ▸ hpre)⟩
    · rcases List.mem_append.mp hq with hq | hq
      · by_cases hdeep : (p ++ n ++ [47]).length < d.length
        · obtain ⟨e', he', hname⟩ := ihk hdeep hq hpre
          exact ⟨e', List.mem_cons_of_mem e (List.mem_append_left es he'), hname⟩
        · obtain ⟨m, -, -, hu⟩ := hkids.under q hq
          have hpath := List.prefix_of_prefix_length_le hpre hu.path_le (Nat.le_of_not_lt hdeep)
          exact ⟨e, List.mem_cons_self, hown hpath⟩
      · obtain ⟨e', he', hname⟩ := ih hlen hq hpre
        exact ⟨e', List.mem_cons_of_mem e (List.mem_append_right kids he'), hname⟩

/-! ## One call -/

variable {A : Archive} {d : List Byte}

theorem sysLs_dir (hA : IsTree A) (hd : IsDir A d) : ∃ printed, sysLs A.bytes (47 :: d) = some printed ∧
    printed.filter (· ≠ []) = Archive.children A d := by
  rcases hd with rfl | ⟨hlast, hmem⟩
  · obtain ⟨printed, hroot, hp⟩ := handleRootLS_children hA
    exact ⟨printed, by rw [sysLs, if_pos ((strcmp_eq_zero _ _).mpr rfl), hroot], hp⟩
  · exact sysLs_children hA hlast hmem

/-- No entry is met, so nothing is printed but for the zero blocks. -/
theorem sysLs_missing (hA : IsTree A) (hlast : d.getLast? = some 47) (hd : ¬ IsDir A d) :
    ∃ printed, sysLs A.bytes (47 :: d) = some printed ∧ printed.filter (· ≠ []) = [] := by
  obtain ⟨names, hl⟩ := hA.tree
  have hne : d ≠ [] := fun hnil => hd (Or.inl hnil)
  have hout : ∀ q ∈ A.entries, ¬ d <+: q.name ∨ fetchName q.name d.length = [46] := by
    intro q hq
    left
    intro hpre
    exact hd (Or.inr ⟨hlast, dir_mem hl hlast (List.length_pos_iff.mpr hne) hq hpre⟩)
  have htwo := A.two_le
  have hlen := A.length_bytes
  have hcount := length_le_flatMap A.entries
  have hroot : ¬ strcmp (47 :: d) [47] = 0 := by
    rw [strcmp_eq_zero]
    intro heq
    exact hne (List.cons.inj heq).2
  have hpass := @lsLoop_passes A d (List.replicate (512 * A.zeroBlocks) 0) A.bytes.length [46] (by omega)
    (A.bytes.length + 1 - A.entries.length) A.entries (by rw [List.length_replicate]; omega) 0 rfl hout
  obtain ⟨printed, hzeros, hempty⟩ := @lsLoop_zeros A A.bytes.length d.length le_rfl
    (fun name => contains name d) A.zeroBlocks (0 + (A.entries.flatMap Entry.bytes).length) _ [46]
    (by rw [Nat.zero_add, Archive.bytes, List.drop_left]) (by omega : A.zeroBlocks < A.bytes.length + 1 - A.entries.length)
  have hfuel : A.bytes.length + 1 - A.entries.length + A.entries.length = A.bytes.length + 1 := by omega
  rw [hfuel, hzeros] at hpass
  refine ⟨printed, ?_, ?_⟩
  · rw [sysLs, if_neg hroot, List.tail_cons, hpass]
  · rw [List.filter_eq_nil_iff]
    intro n hn
    simpa using hempty n hn

/-! ## A session -/

def Prints (A : Archive) (s : Session) (arg : Option (List Byte)) (names : List (List Byte)) : Prop :=
  ∃ printed, ls A.bytes s arg = some printed ∧ printed.filter (· ≠ []) = names

theorem prints_pwd (hA : IsTree A) {s : Session} (hs : s.pwd = 47 :: d) (hd : IsDir A d) :
    Prints A s none (Archive.children A d) := by
  have hpath : IsDirPath A s.pwd := ⟨d, hs, hd⟩
  have hlength := hpath.length_lt hA.short
  obtain ⟨printed, hls, hprinted⟩ := sysLs_dir hA hd
  refine ⟨printed, ?_, hprinted⟩
  rw [ls, pwd, copyInto_of_lt (by omega), Option.bind_some, hs, hls]

theorem prints_path (hA : IsTree A) {s : Session} (hs : IsDirPath A s.pwd) {fname : List Byte}
    (hfname : sanitized s.pwd fname = 47 :: d) :
    (IsDir A d → Prints A s (some fname) (Archive.children A d)) ∧ (¬ IsDir A d → Prints A s (some fname) []) := by
  have hlength := hs.length_lt hA.short
  have hpath : ls A.bytes s (some fname) = sysLs A.bytes (47 :: d) := by
    rw [ls, pwd, copyInto_of_lt (by omega), Option.map_some, Option.bind_some, getAbsoluteFilePath_slashed hs.last, hfname]
  have hlast : (47 :: d).getLast? = some 47 := by
    rw [← hfname]
    exact slashed_last _
  refine ⟨fun hd => ?_, fun hd => ?_⟩
  · obtain ⟨printed, hls, hprinted⟩ := sysLs_dir hA hd
    exact ⟨printed, hpath.trans hls, hprinted⟩
  · have hlast' : d.getLast? = some 47 := by
      obtain ⟨c, rest, rfl⟩ := List.exists_cons_of_ne_nil (fun hnil => hd (Or.inl hnil) : d ≠ [])
      rwa [List.getLast?_cons_cons] at hlast
    obtain ⟨printed, hls, hprinted⟩ := sysLs_missing hA hlast' hd
    exact ⟨printed, hpath.trans hls, hprinted⟩

/-- After any calls of `cd` whose paths have room in the message, `ls` lists the children of the
directory that the task is in, and with a path the children of the directory that the path means
there, or nothing if it means none. -/
theorem ls_lists (A : Archive) (hA : IsTree A) (t : Slot) (dirs : Dirs) (ops : List Op)
    (hops : Transition.Along (step A.bytes t) Meets ⟨[47], dirs⟩ ops) :
    ∃ s d, Transition.run (step A.bytes t) ⟨[47], dirs⟩ ops = some s ∧ s.pwd = 47 :: d ∧ IsDir A d ∧
      Prints A s none (Archive.children A d) ∧ ∀ fname, ∃ d', sanitized s.pwd fname = 47 :: d' ∧
        (IsDir A d' → Prints A s (some fname) (Archive.children A d')) ∧ (¬ IsDir A d' → Prints A s (some fname) []) := by
  obtain ⟨s, hs, d, hpwd, hd⟩ := run_some hA.short t ops (s := ⟨[47], dirs⟩) ⟨[], rfl, Or.inl rfl⟩ hops
  refine ⟨s, d, hs, hpwd, hd, prints_pwd hA hpwd hd, fun fname => ?_⟩
  obtain ⟨d', hfname⟩ := List.head?_eq_some_iff.mp (sanitized_head ⟨d, hpwd, hd⟩ fname)
  exact ⟨d', hfname, prints_path hA ⟨d, hpwd, hd⟩ hfname⟩

/-- In `smallTree`, `ls b` shows `x` and `ls c` nothing. -/
theorem ls_lists_smallTree : ∃ s, Transition.run (step smallTree.bytes 0) ⟨[47], Dirs.start⟩ [] = some s ∧
    Prints smallTree s (some [98]) [[120]] ∧ Prints smallTree s (some [99]) [] := by
  obtain ⟨s, d, hs, -, -, -, hpath⟩ := ls_lists smallTree smallTree_isTree 0 Dirs.start [] trivial
  obtain rfl := Option.some.inj hs
  obtain ⟨b, hb, hdir, -⟩ := hpath [98]
  obtain ⟨c, hc, -, hmissing⟩ := hpath [99]
  obtain rfl : [98, 47] = b := (List.cons.inj hb).2
  obtain rfl : [99, 47] = c := (List.cons.inj hc).2
  have hfile : ∀ e ∈ smallTree.entries, e.name ≠ [99, 47] := by decide
  refine ⟨_, rfl, hdir smallTree_isDir, hmissing ?_⟩
  rintro (hnil | ⟨-, e, he, hname⟩)
  · cases hnil
  · exact hfile e he hname

end LsCommand
