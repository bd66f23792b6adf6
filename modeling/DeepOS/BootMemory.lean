import DeepOS.BootPages
import Mathlib.Data.Nat.Nth

/-!
# The memory behind the boot

The frames that become tables are not cleared. As long as no word is left over where the
boot reads a link, it is known which frame becomes which table, and every word of it: one
that was stored, or the one that RAM held at the start.
-/
namespace BootMemory

open PhyMem TaskTable PageTable PageMap VirtAlloc Boot BootTables TablePaths BootPages
open BootMap (kerPhysfree)
open RadixForest (follow put)

variable {c : Start} {k k' k₁ : Kernel} {n : Nat}

/-! ## The frames in the order they are taken -/

/-- The `n`-th free frame from below. -/
noncomputable def frame (c : Start) (n : Nat) : Nat := Nat.nth (fun f => f ∈ freeOf c) n

theorem freeOf_finite (c : Start) : (Set.ofPred fun f => f ∈ freeOf c).Finite := freeFrames_finite _

theorem card_freeOf (c : Start) : (freeOf_finite c).toFinset.card = (freeOf c).ncard :=
  (Set.ncard_eq_toFinset_card _ (freeOf_finite c)).symm

theorem frame_mem (hn : n < (freeOf c).ncard) : frame c n ∈ freeOf c :=
  Nat.nth_mem_of_lt_card (freeOf_finite c) (by rw [card_freeOf]; exact hn)

theorem frame_inj {m : Nat} (hm : m < (freeOf c).ncard) (hn : n < (freeOf c).ncard)
    (h : frame c m = frame c n) : m = n := by
  refine Nat.nth_injOn (freeOf_finite c) ?_ ?_ h
  · rw [Set.mem_Iio, card_freeOf]
    exact hm
  · rw [Set.mem_Iio, card_freeOf]
    exact hn

theorem exists_frame {f : Nat} (hf : f ∈ freeOf c) : ∃ m < (freeOf c).ncard, frame c m = f := by
  obtain ⟨m, hm, heq⟩ := Nat.exists_lt_card_finite_nth_eq (freeOf_finite c) hf
  rw [card_freeOf] at hm
  exact ⟨m, hm, heq⟩

/-- The frames that are free when the first `n` have been taken. -/
def rest (c : Start) (n : Nat) : Set Nat := {f | f ∈ freeOf c ∧ ∀ m < n, f ≠ frame c m}

theorem rest_zero (c : Start) : rest c 0 = freeOf c := by
  ext f
  exact ⟨fun h => h.1, fun h => ⟨h, fun m hm => absurd hm m.not_lt_zero⟩⟩

theorem rest_succ (c : Start) (n : Nat) : rest c n \ {frame c n} = rest c (n + 1) := by
  ext f
  constructor
  · rintro ⟨⟨hf, hne⟩, hn⟩
    refine ⟨hf, fun m hm => ?_⟩
    rcases Nat.lt_succ_iff_lt_or_eq.mp hm with hm | rfl
    · exact hne m hm
    · exact hn
  · rintro ⟨hf, hne⟩
    exact ⟨⟨hf, fun m hm => hne m (hm.trans n.lt_succ_self)⟩, hne n n.lt_succ_self⟩

theorem rest_least (hn : n < (freeOf c).ncard) : IsLeast (rest c n) (frame c n) := by
  refine ⟨⟨frame_mem hn, fun m hm heq => hm.ne' (frame_inj hn (hm.trans hn) heq)⟩, ?_⟩
  rintro f ⟨hf, hne⟩
  obtain ⟨m, hm, rfl⟩ := exists_frame hf
  have hle : n ≤ m := not_lt.mp fun hlt => hne m hlt rfl
  exact Nat.nth_le_nth_of_lt_card (freeOf_finite c) hle (by rw [card_freeOf]; exact hm)

theorem lt_of_mem_rest {f : Nat} (hf : f ∈ rest c n) : n < (freeOf c).ncard := by
  obtain ⟨m, hm, rfl⟩ := exists_frame hf.1
  by_contra hle
  exact hf.2 m (hm.trans_le (not_lt.mp hle)) rfl

theorem pageAlloc_frame {p : Word} (hfree : freeFrames k.memMap = rest c n) (hs : k.pageAlloc = some (p, k')) :
    n < (freeOf c).ncard ∧ p = frameAddr (frame c n) ∧ k' = { k with memMap := mmapUnset k.memMap (frame c n) } ∧
      freeFrames k'.memMap = rest c (n + 1) := by
  obtain ⟨g, hg, rfl, rfl⟩ := pageAlloc_some hs
  rw [hfree] at hg
  have hn := lt_of_mem_rest hg.1
  obtain rfl := hg.unique (rest_least hn)
  refine ⟨hn, rfl, rfl, ?_⟩
  rw [freeFrames_unset, hfree, rest_succ]

theorem pageAlloc_rest_isSome (h0 : 0 ∉ freeOf c) (hfree : freeFrames k.memMap = rest c n)
    (hn : n < (freeOf c).ncard) : ∃ p k', k.pageAlloc = some (p, k') := by
  refine pageAlloc_isSome ?_ ?_
  · rw [hfree]
    exact fun hm => h0 hm.1
  · rw [← Nat.pos_iff_ne_zero, Set.ncard_pos (freeFrames_finite _), hfree]
    exact ⟨_, (rest_least hn).1⟩

/-! ## What the frames are taken for -/

/-- A table, known by its path, or the kernel stack. -/
abbrev Use := Option (List (Fin 512))

def addTable (U : List Use) (q : List (Fin 512)) : List Use := if some q ∈ U then U else U ++ [some q]

/-- The tables below the one at `q` on the path `p`. -/
def addPath : List Use → List (Fin 512) → List (Fin 512) → List Use
  | U, _, [] => U
  | U, q, i :: p => addPath (addTable U (q ++ [i])) (q ++ [i]) p

def addPages (U : List Use) (v : Nat → Word) (m : Nat) : List Use :=
  (List.range m).foldl (fun U i => addPath U [] (pathOf (v i))) U

def kernelUses : List Use := addPath [some []] [] (pathOf kernmem)

/-- What `map_kernel` and `identity_mapping` take frames for, in their order. -/
def tableUses (c : Start) : List Use :=
  addPages (addPages kernelUses windowPage (windowPages c.bootMap.maxPhys)) (vgaPage (vgaOf c)) vgaPages

/-- And `setup_kernel_stack` behind them. -/
def uses (c : Start) : List Use := addPath (tableUses c ++ [none]) [] (pathOf (stackOf c))

/-- The frame that becomes the table with the path `q`. -/
noncomputable def tableFrame (c : Start) (q : List (Fin 512)) : Nat := frame c ((uses c).idxOf (some q))

variable {U : List Use} {q p : List (Fin 512)} {i : Fin 512}

theorem prefix_addTable (U : List Use) (q : List (Fin 512)) : U <+: addTable U q := by
  rw [addTable]
  split
  · exact List.prefix_refl U
  · exact List.prefix_append U _

theorem prefix_addPath (p : List (Fin 512)) : ∀ (U : List Use) (q : List (Fin 512)), U <+: addPath U q p := by
  induction p with
  | nil => exact fun U _ => List.prefix_refl U
  | cons i p ih => exact fun U q => (prefix_addTable U _).trans (ih _ _)

theorem addPages_succ (U : List Use) (v : Nat → Word) (m : Nat) :
    addPages U v (m + 1) = addPath (addPages U v m) [] (pathOf (v m)) := by
  rw [addPages, List.range_succ, List.foldl_append]
  rfl

theorem addPages_mono {v : Nat → Word} {m₁ m₂ : Nat} (hm : m₁ ≤ m₂) : addPages U v m₁ <+: addPages U v m₂ := by
  induction m₂, hm using Nat.le_induction with
  | base => exact List.prefix_refl _
  | succ m _ ih =>
    rw [addPages_succ]
    exact ih.trans (prefix_addPath _ _ _)

theorem prefix_addPages (U : List Use) (v : Nat → Word) (m : Nat) : U <+: addPages U v m :=
  addPages_mono (Nat.zero_le m)

theorem prefix_windowUses (c : Start) :
    addPages kernelUses windowPage (windowPages c.bootMap.maxPhys) <+: tableUses c :=
  prefix_addPages _ _ _

theorem prefix_stackUses (c : Start) : tableUses c ++ [none] <+: uses c := prefix_addPath _ _ _

theorem prefix_tableUses (c : Start) : tableUses c <+: uses c :=
  (List.prefix_append _ _).trans (prefix_stackUses c)

theorem mem_addTable {u : Use} : u ∈ addTable U q ↔ u ∈ U ∨ u = some q := by
  rw [addTable]
  split
  · rename_i hq
    exact ⟨Or.inl, fun h => h.elim id fun he => he ▸ hq⟩
  · rw [List.mem_append, List.mem_singleton]

theorem mem_addPath {u : Use} (p : List (Fin 512)) : ∀ {U : List Use} {q : List (Fin 512)},
    some q ∈ U → (u ∈ addPath U q p ↔ u ∈ U ∨ ∃ p', p' <+: p ∧ u = some (q ++ p')) := by
  induction p with
  | nil =>
    intro U q hq
    refine ⟨Or.inl, ?_⟩
    rintro (hu | ⟨p', hp', rfl⟩)
    · exact hu
    · rw [List.prefix_nil.mp hp', List.append_nil]
      exact hq
  | cons i p ih =>
    intro U q hq
    rw [addPath, ih (mem_addTable.mpr (Or.inr rfl)), mem_addTable]
    constructor
    · rintro ((hu | rfl) | ⟨p', hp', rfl⟩)
      · exact Or.inl hu
      · exact Or.inr ⟨[i], List.cons_prefix_cons.mpr ⟨rfl, List.nil_prefix⟩, rfl⟩
      · exact Or.inr ⟨i :: p', List.cons_prefix_cons.mpr ⟨rfl, hp'⟩, by rw [List.append_assoc]; rfl⟩
    · rintro (hu | ⟨p', hp', rfl⟩)
      · exact Or.inl (Or.inl hu)
      · rcases List.prefix_cons_iff.mp hp' with rfl | ⟨p'', rfl, hp''⟩
        · rw [List.append_nil]
          exact Or.inl (Or.inl hq)
        · exact Or.inr ⟨p'', hp'', by rw [List.append_assoc]; rfl⟩

theorem mem_addPages {v : Nat → Word} {u : Use} (hroot : some [] ∈ U) (m : Nat) :
    u ∈ addPages U v m ↔ u ∈ U ∨ ∃ q ∈ tablesUpTo v m, u = some q := by
  induction m with
  | zero =>
    refine ⟨Or.inl, ?_⟩
    rintro (hu | ⟨q, hq, -⟩)
    · exact hu
    · rw [tablesUpTo, Finset.range_zero, Finset.biUnion_empty] at hq
      exact absurd hq (Finset.notMem_empty q)
  | succ m ih =>
    rw [addPages_succ, mem_addPath _ ((prefix_addPages U v m).subset hroot), ih, tablesUpTo_succ, or_assoc]
    refine or_congr_right ?_
    constructor
    · rintro (⟨q, hq, rfl⟩ | ⟨p', hp', rfl⟩)
      · exact ⟨q, Finset.mem_union_left _ hq, rfl⟩
      · exact ⟨p', Finset.mem_union_right _ (mem_tablesOf.mpr hp'), rfl⟩
    · rintro ⟨q, hq, rfl⟩
      rcases Finset.mem_union.mp hq with hq | hq
      · exact Or.inl ⟨q, hq, rfl⟩
      · exact Or.inr ⟨q, mem_tablesOf.mp hq, rfl⟩

@[irreducible] def allTables (c : Start) : Finset (List (Fin 512)) := tablesOfStart c ∪ tablesOf (stackOf c)

theorem root_mem_kernelUses : some [] ∈ kernelUses :=
  (prefix_addPath (pathOf kernmem) [some []] []).subset (List.mem_singleton_self _)

theorem mem_kernelUses {u : Use} : u ∈ kernelUses ↔ ∃ q ∈ tablesOf kernmem, u = some q := by
  rw [kernelUses, mem_addPath _ (List.mem_singleton_self _), List.mem_singleton]
  constructor
  · rintro (rfl | ⟨p', hp', rfl⟩)
    · exact ⟨[], mem_tablesOf.mpr List.nil_prefix, rfl⟩
    · exact ⟨p', mem_tablesOf.mpr hp', rfl⟩
  · rintro ⟨q, hq, rfl⟩
    exact Or.inr ⟨q, mem_tablesOf.mp hq, rfl⟩

theorem mem_tableUses {u : Use} : u ∈ tableUses c ↔ ∃ q ∈ tablesOfStart c, u = some q := by
  rw [tableUses, mem_addPages ((prefix_addPages _ _ _).subset root_mem_kernelUses),
    mem_addPages root_mem_kernelUses, mem_kernelUses, tablesOfStart, identityTables]
  simp only [Finset.mem_union, or_and_right, exists_or]

theorem some_mem_tableUses : some q ∈ tableUses c ↔ q ∈ tablesOfStart c := by
  rw [mem_tableUses]
  exact ⟨fun ⟨q', hq', heq⟩ => Option.some.inj heq ▸ hq', fun h => ⟨q, h, rfl⟩⟩

theorem root_mem_tableUses (c : Start) : some [] ∈ tableUses c :=
  ((prefix_addPages _ _ _).trans (prefix_addPages _ _ _)).subset root_mem_kernelUses

theorem some_mem_uses : some q ∈ uses c ↔ q ∈ allTables c := by
  rw [uses, mem_addPath _ (List.mem_append_left _ (root_mem_tableUses c)), List.mem_append, some_mem_tableUses,
    allTables, Finset.mem_union, mem_tablesOf]
  simp

theorem nodup_addTable (h : U.Nodup) : (addTable U q).Nodup := by
  rw [addTable]
  split
  · exact h
  · rename_i hq
    exact List.nodup_append'.mpr ⟨h, List.nodup_singleton _, List.disjoint_singleton.mpr hq⟩

theorem nodup_addPath (p : List (Fin 512)) : ∀ {U : List Use} {q : List (Fin 512)}, U.Nodup → (addPath U q p).Nodup := by
  induction p with
  | nil => exact id
  | cons i p ih => exact fun h => ih (nodup_addTable h)

theorem nodup_addPages (v : Nat → Word) (m : Nat) (h : U.Nodup) : (addPages U v m).Nodup := by
  induction m with
  | zero => exact h
  | succ m ih =>
    rw [addPages_succ]
    exact nodup_addPath _ ih

theorem nodup_tableUses (c : Start) : (tableUses c).Nodup :=
  nodup_addPages _ _ (nodup_addPages _ _ (nodup_addPath _ (List.nodup_singleton _)))

theorem length_tableUses (c : Start) : (tableUses c).length = (tablesOfStart c).card := by
  have hset : (tableUses c).toFinset = (tablesOfStart c).image some := by
    ext u
    rw [List.mem_toFinset, mem_tableUses, Finset.mem_image]
    simp only [eq_comm]
  rw [← List.toFinset_card_of_nodup (nodup_tableUses c), hset,
    Finset.card_image_of_injective _ (Option.some_injective _)]

theorem nodup_uses (c : Start) : (uses c).Nodup := by
  refine nodup_addPath _ (List.nodup_append'.mpr ⟨nodup_tableUses c, List.nodup_singleton _, ?_⟩)
  refine List.disjoint_singleton.mpr fun hmem => ?_
  obtain ⟨q, -, heq⟩ := mem_tableUses.mp hmem
  cases heq

/-- Each table takes one frame, and so does the stack. -/
theorem length_uses (c : Start) : (uses c).length = (allTables c).card + 1 := by
  have hset : (uses c).toFinset = insert none ((allTables c).image some) := by
    ext u
    rw [List.mem_toFinset, Finset.mem_insert, Finset.mem_image]
    cases u with
    | none => exact ⟨fun _ => Or.inl rfl, fun _ => (prefix_stackUses c).subset (by simp)⟩
    | some q => simp [some_mem_uses]
  rw [← List.toFinset_card_of_nodup (nodup_uses c), hset, Finset.card_insert_of_notMem (by simp),
    Finset.card_image_of_injective _ (Option.some_injective _)]

theorem length_tableUses_lt (c : Start) : (tableUses c).length < (uses c).length := by
  have hle := (prefix_stackUses c).length_le
  rw [List.length_append, List.length_singleton] at hle
  omega

theorem idxOf_lt (h : U <+: uses c) (hq : some q ∈ U) : (uses c).idxOf (some q) < U.length := by
  obtain ⟨V, hV⟩ := h
  rw [← hV, List.idxOf_append_of_mem hq]
  exact List.idxOf_lt_length_of_mem hq

theorem tableFrame_inj {q' : List (Fin 512)} (h : U <+: uses c) (hroom : U.length ≤ (freeOf c).ncard)
    (hq : some q ∈ U) (hq' : some q' ∈ U) (heq : tableFrame c q = tableFrame c q') : q = q' := by
  have hindex := frame_inj ((idxOf_lt h hq).trans_le hroom) ((idxOf_lt h hq').trans_le hroom) heq
  exact Option.some.inj ((List.idxOf_inj (h.subset hq)).mp hindex)

/-- The next frame becomes the next table. -/
theorem tableFrame_next (h : U ++ [some q] <+: uses c) : tableFrame c q = frame c U.length := by
  have hnot : some q ∉ U := by
    intro hq
    exact List.disjoint_singleton.mp (List.nodup_append'.mp (h.sublist.nodup (nodup_uses c))).2.2 hq
  obtain ⟨V, hV⟩ := h
  rw [tableFrame, ← hV, List.append_assoc, List.idxOf_append_of_notMem hnot, List.singleton_append,
    List.idxOf_cons_self, Nat.add_zero]

/-! ## The words of the tables -/

/-- Entries of last tables and the words stored to them, the newest first. -/
abbrev Leaves := List (List (Fin 512) × Word)

/-- The word that has been stored to an entry: the link to a table that is there, or the
entry of a page. -/
noncomputable def stored (c : Start) (U : List Use) (l : Leaves) (p : List (Fin 512)) : Option Word :=
  if p.length ≤ 3 then if some p ∈ U then some (mkEntry (frameAddr (tableFrame c p))) else none
  else l.lookup p

/-- The first frames have been taken for `U`, and in its tables stand the words that have
been stored, else those that RAM held. -/
structure Words (c : Start) (U : List Use) (l : Leaves) (k : Kernel) : Prop where
  known : U <+: uses c
  room : U.length ≤ (freeOf c).ncard
  root : some [] ∈ U
  closed : ∀ q i, some (q ++ [i]) ∈ U → some q ∈ U
  mem : ∀ q i, some q ∈ U →
    k.mem (tableFrame c q) i = (stored c U l (q ++ [i])).getD (c.mem (tableFrame c q) i)

/-- No other frames have been taken, and no other words have changed. -/
structure Holds (c : Start) (U : List Use) (l : Leaves) (k : Kernel) : Prop extends Words c U l k where
  free : freeFrames k.memMap = rest c U.length
  written : ∀ q i w, (q ++ [i], w) ∈ l → some q ∈ U
  others : ∀ f, (∀ q, some q ∈ U → f ≠ tableFrame c q) → k.mem f = c.mem f

variable {l : Leaves} {w : Word}

theorem stored_link (hlen : p.length ≤ 3) (hp : some p ∈ U) :
    stored c U l p = some (mkEntry (frameAddr (tableFrame c p))) := by
  rw [stored, if_pos hlen, if_pos hp]

theorem stored_none (hlen : p.length ≤ 3) (hp : some p ∉ U) : stored c U l p = none := by
  rw [stored, if_pos hlen, if_neg hp]

theorem stored_leaf (hlen : p.length = 4) : stored c U l p = l.lookup p := by
  rw [stored, if_neg (by omega)]

theorem length_snoc (q : List (Fin 512)) (i : Fin 512) : (q ++ [i]).length = q.length + 1 := by
  rw [List.length_append, List.length_singleton]

theorem Words.frame_mem (h : Words c U l k) (hq : some q ∈ U) : tableFrame c q ∈ freeOf c :=
  BootMemory.frame_mem ((idxOf_lt h.known hq).trans_le h.room)

theorem Words.frame_inj {q' : List (Fin 512)} (h : Words c U l k) (hq : some q ∈ U) (hq' : some q' ∈ U)
    (heq : tableFrame c q = tableFrame c q') : q = q' :=
  tableFrame_inj h.known h.room hq hq' heq

/-- A use that is no table changes nothing else. -/
theorem Holds.take (h : Holds c U l k) (hs : k.pageAlloc = some (w, k')) (hknown : U ++ [none] <+: uses c) :
    w = frameAddr (frame c U.length) ∧ Holds c (U ++ [none]) l k' := by
  obtain ⟨hroom, rfl, rfl, hfree⟩ := pageAlloc_frame h.free hs
  have hsome : ∀ q, some q ∈ U ++ [none] ↔ some q ∈ U := fun q => by simp
  refine ⟨rfl, ⟨hknown, ?_, List.mem_append_left _ h.root, ?_, ?_⟩, ?_, ?_, ?_⟩
  · rw [List.length_append]
    exact hroom
  · intro q i hq
    rw [hsome] at hq ⊢
    exact h.closed q i hq
  · intro q i hq
    rw [hsome] at hq
    simp only [stored, hsome]
    exact h.mem q i hq
  · rw [List.length_append]
    exact hfree
  · intro q i w hw
    rw [hsome]
    exact h.written q i w hw
  · intro f hf
    exact h.others f fun q hq => hf q ((hsome q).mpr hq)

/-- The next frame becomes a table, and its link is stored. -/
theorem Holds.link (h : Holds c U l k) (hs : k.pageAlloc = some (w, k₁)) (hq : some q ∈ U) (hlen : q.length < 3)
    (hnew : some (q ++ [i]) ∉ U) (hknown : U ++ [some (q ++ [i])] <+: uses c)
    (hmem : k'.mem = put k₁.mem (tableFrame c q) i (mkEntry w)) (hmap : k'.memMap = k₁.memMap) :
    frameOf w = tableFrame c (q ++ [i]) ∧ Holds c (U ++ [some (q ++ [i])]) l k' := by
  obtain ⟨hroom, rfl, rfl, hfree⟩ := pageAlloc_frame h.free hs
  have hnext := tableFrame_next hknown
  have hlt : frame c U.length < FRAMES := freeFrames_lt (BootMemory.frame_mem hroom)
  have hsome : ∀ p, some p ∈ U ++ [some (q ++ [i])] ↔ some p ∈ U ∨ p = q ++ [i] := fun p => by simp
  -- the new table is none of the others
  have hother : ∀ p, some p ∈ U → tableFrame c (q ++ [i]) ≠ tableFrame c p := by
    intro p hp heq
    have hroom' : (U ++ [some (q ++ [i])]).length ≤ (freeOf c).ncard := by
      rw [List.length_append]
      exact hroom
    have hsame := tableFrame_inj hknown hroom' ((hsome _).mpr (Or.inr rfl)) ((hsome _).mpr (Or.inl hp)) heq
    exact hnew (hsame ▸ hp)
  refine ⟨by rw [frameOf_frameAddr hlt, hnext], ⟨hknown, ?_, List.mem_append_left _ h.root, ?_, ?_⟩, ?_, ?_, ?_⟩
  · rw [List.length_append]
    exact hroom
  · intro q' i' hq'
    rw [hsome] at hq' ⊢
    rcases hq' with hq' | heq
    · exact Or.inl (h.closed q' i' hq')
    · exact Or.inl ((List.append_singleton_inj.mp heq).1 ▸ hq)
  · intro q' i' hq'
    rw [hmem]
    rcases (hsome q').mp hq' with hq' | rfl
    · by_cases hsame : q' = q ∧ i' = i
      · obtain ⟨rfl, rfl⟩ := hsame
        rw [RadixForest.put_self, stored_link (by rw [length_snoc]; omega) ((hsome _).mpr (Or.inr rfl)),
          Option.getD_some, hnext]
      · have hkeep : put k.mem (tableFrame c q) i (mkEntry (frameAddr (frame c U.length))) (tableFrame c q') i' =
            k.mem (tableFrame c q') i' := by
          by_cases hqq : q' = q
          · subst hqq
            exact RadixForest.put_index_of_ne _ _ (fun hi => hsame ⟨rfl, hi⟩) _
          · rw [RadixForest.put_of_ne _ fun heq => hqq (h.frame_inj hq' hq heq)]
        have hstored : stored c (U ++ [some (q ++ [i])]) l (q' ++ [i']) = stored c U l (q' ++ [i']) := by
          simp only [stored, hsome, List.append_singleton_inj, hsame, or_false]
        rw [hkeep, hstored]
        exact h.mem q' i' hq'
    · -- no word of the new table has been stored
      have hfresh : stored c (U ++ [some (q ++ [i])]) l (q ++ [i] ++ [i']) = none := by
        rw [stored]
        split
        · refine if_neg fun hmem => ?_
          rcases (hsome _).mp hmem with hmem | heq
          · exact hnew (h.closed _ _ hmem)
          · have hlength := congrArg List.length heq
            rw [length_snoc] at hlength
            omega
        · rw [List.lookup_eq_none_iff]
          rintro ⟨p, w'⟩ hp
          rw [bne_iff_ne]
          rintro rfl
          exact hnew (h.written _ _ _ hp)
      rw [hfresh, Option.getD_none, RadixForest.put_of_ne _ (hother q hq)]
      exact congrFun (h.others _ hother) i'
  · rw [hmap, List.length_append]
    exact hfree
  · intro q' i' w' hw'
    exact (hsome q').mpr (Or.inl (h.written q' i' w' hw'))
  · intro f hf
    rw [hmem, RadixForest.put_of_ne _ (hf q ((hsome q).mpr (Or.inl hq)))]
    exact h.others f fun p hp => hf p ((hsome p).mpr (Or.inl hp))

/-- An entry of a last table is stored. -/
theorem Holds.leaf (h : Holds c U l k) (hq : some q ∈ U) (hlen : q.length = 3)
    (hmem : k'.mem = put k.mem (tableFrame c q) i w) (hmap : k'.memMap = k.memMap) :
    Holds c U ((q ++ [i], w) :: l) k' := by
  refine ⟨⟨h.known, h.room, h.root, h.closed, ?_⟩, by rw [hmap]; exact h.free, ?_, ?_⟩
  · intro q' i' hq'
    rw [hmem]
    by_cases hsame : q' = q ∧ i' = i
    · obtain ⟨rfl, rfl⟩ := hsame
      rw [RadixForest.put_self, stored_leaf (by rw [length_snoc, hlen]), List.lookup_cons_self, Option.getD_some]
    · have hkeep : put k.mem (tableFrame c q) i w (tableFrame c q') i' = k.mem (tableFrame c q') i' := by
        by_cases hqq : q' = q
        · subst hqq
          exact RadixForest.put_index_of_ne _ _ (fun hi => hsame ⟨rfl, hi⟩) _
        · rw [RadixForest.put_of_ne _ fun heq => hqq (h.frame_inj hq' hq heq)]
      have hne : (q' ++ [i'] == q ++ [i]) = false := by
        rw [beq_eq_false_iff_ne, ne_eq, List.append_singleton_inj]
        exact hsame
      have hstored : stored c U ((q ++ [i], w) :: l) (q' ++ [i']) = stored c U l (q' ++ [i']) := by
        rw [stored, stored, List.lookup_cons, hne]
      rw [hkeep, hstored]
      exact h.mem q' i' hq'
  · intro q' i' w' hw'
    rcases List.mem_cons.mp hw' with heq | hw'
    · exact (List.append_singleton_inj.mp (congrArg Prod.fst heq)).1 ▸ hq
    · exact h.written q' i' w' hw'
  · intro f hf
    rw [hmem, RadixForest.put_of_ne _ (hf q hq)]
    exact h.others f hf

/-! ## A level of the tables -/

theorem addTable_of_mem (hq : some q ∈ U) : addTable U q = U := if_pos hq

theorem addTable_of_notMem (hq : some q ∉ U) : addTable U q = U ++ [some q] := if_neg hq

/-- A link that is there leads to its table. -/
theorem Words.linked (h : Words c U l k) (hlen : q.length < 3) (hi : some (q ++ [i]) ∈ U) :
    k.mem (tableFrame c q) i = mkEntry (frameAddr (tableFrame c (q ++ [i]))) := by
  rw [h.mem q i (h.closed q i hi), stored_link (by rw [length_snoc]; omega) hi, Option.getD_some]

/-- Where no table is linked stands what RAM held at the start. -/
theorem Words.unlinked (h : Words c U l k) (hlen : q.length < 3) (hq : some q ∈ U) (hi : some (q ++ [i]) ∉ U) :
    k.mem (tableFrame c q) i = c.mem (tableFrame c q) i := by
  rw [h.mem q i hq, stored_none (by rw [length_snoc]; omega) hi, Option.getD_none]

theorem Words.frameOf_table (h : Words c U l k) (hq : some q ∈ U) :
    frameOf (frameAddr (tableFrame c q)) = tableFrame c q :=
  frameOf_frameAddr (freeFrames_lt (h.frame_mem hq))

theorem Holds.newTable {table t : Word} (h : Holds c U l k) (ht : frameOf table = tableFrame c q)
    (hq : some q ∈ U) (hlen : q.length < 3) (hnew : some (q ++ [i]) ∉ U)
    (hknown : U ++ [some (q ++ [i])] <+: uses c) (hs : newTable k table i = some (t, k')) :
    frameOf t = tableFrame c (q ++ [i]) ∧ Holds c (U ++ [some (q ++ [i])]) l k' := by
  rw [Boot.newTable, Option.map_eq_some_iff] at hs
  obtain ⟨⟨p, k₁⟩, halloc, hres⟩ := hs
  obtain ⟨rfl, rfl⟩ := Prod.mk.inj hres
  exact h.link halloc hq hlen hnew hknown (by rw [putPhys, ht]) rfl

theorem Holds.bootTable {table t : Word} (h : Holds c U l k) (ht : frameOf table = tableFrame c q)
    (hq : some q ∈ U) (hlen : q.length < 3)
    (hclean : some (q ++ [i]) ∉ U → isPresent (c.mem (tableFrame c q) i) = false)
    (hknown : addTable U (q ++ [i]) <+: uses c) (hs : bootTable k table i = some (t, k')) :
    frameOf t = tableFrame c (q ++ [i]) ∧ Holds c (addTable U (q ++ [i])) l k' := by
  rw [Boot.bootTable, ht] at hs
  by_cases hi : some (q ++ [i]) ∈ U
  · rw [h.linked hlen hi, if_pos (isPresent_mkEntry _)] at hs
    obtain ⟨rfl, rfl⟩ := Prod.mk.inj (Option.some.inj hs)
    rw [addTable_of_mem hi, frameOf_getAddress, frameOf_mkEntry, h.frameOf_table hi]
    exact ⟨rfl, h⟩
  · rw [h.unlinked hlen hq hi, hclean hi, if_neg Bool.false_ne_true] at hs
    rw [addTable_of_notMem hi] at hknown ⊢
    exact h.newTable ht hq hlen hi hknown hs

theorem Holds.bootTable_isSome {table : Word} (h : Holds c U l k) (h0 : 0 ∉ freeOf c) (i : Fin 512)
    (ht : frameOf table = tableFrame c q) (hlen : q.length < 3)
    (hroom : (addTable U (q ++ [i])).length ≤ (freeOf c).ncard) :
    ∃ t k', Boot.bootTable k table i = some (t, k') := by
  rw [Boot.bootTable]
  by_cases hi : some (q ++ [i]) ∈ U
  · rw [ht, h.linked hlen hi, if_pos (isPresent_mkEntry _)]
    exact ⟨_, _, rfl⟩
  · rw [addTable_of_notMem hi, List.length_append] at hroom
    obtain ⟨p, k₁, halloc⟩ := pageAlloc_rest_isSome h0 h.free hroom
    split
    · exact ⟨_, _, rfl⟩
    · rw [Boot.newTable, halloc]
      exact ⟨_, _, rfl⟩

/-- No word is left over where the path is followed beyond the tables `U`. -/
def CleanPath (c : Start) (U : List Use) (q p : List (Fin 512)) : Prop :=
  ∀ p' i, p' ++ [i] <+: p → some (q ++ p' ++ [i]) ∉ U → isPresent (c.mem (tableFrame c (q ++ p')) i) = false

theorem CleanPath.head (h : CleanPath c U q (i :: p)) :
    some (q ++ [i]) ∉ U → isPresent (c.mem (tableFrame c q) i) = false := by
  have hfirst := h [] i (List.cons_prefix_cons.mpr ⟨rfl, List.nil_prefix⟩)
  rw [List.append_nil] at hfirst
  exact hfirst

theorem CleanPath.tail (h : CleanPath c U q (i :: p)) : CleanPath c (addTable U (q ++ [i])) (q ++ [i]) p := by
  intro p' j hp' hnot
  have hfirst := h (i :: p') j (List.cons_prefix_cons.mpr ⟨rfl, hp'⟩)
  rw [show q ++ i :: p' = q ++ [i] ++ p' by rw [List.append_assoc]; rfl] at hfirst
  exact hfirst fun hmem => hnot (mem_addTable.mpr (Or.inl hmem))

theorem Holds.descendPhys (p : List (Fin 512)) : ∀ {U : List Use} {q : List (Fin 512)} {k : Kernel} {table t : Word},
    Holds c U l k → frameOf table = tableFrame c q → some q ∈ U → q.length + p.length ≤ 3 → CleanPath c U q p →
    addPath U q p <+: uses c → descendPhys k table p = some (t, k') →
    frameOf t = tableFrame c (q ++ p) ∧ Holds c (addPath U q p) l k' := by
  induction p with
  | nil =>
    intro U q k table t h ht _ _ _ _ hs
    obtain ⟨rfl, rfl⟩ := Prod.mk.inj (Option.some.inj hs)
    rw [List.append_nil]
    exact ⟨ht, h⟩
  | cons i p ih =>
    intro U q k table t h ht hq hlen hclean hknown hs
    rw [List.length_cons] at hlen
    rw [BootTables.descendPhys, Option.bind_eq_some_iff] at hs
    obtain ⟨⟨t₁, k₁⟩, h₁, hs⟩ := hs
    obtain ⟨ht₁, hholds⟩ := h.bootTable ht hq (by omega) hclean.head ((prefix_addPath _ _ _).trans hknown) h₁
    obtain ⟨ht', hholds'⟩ := ih hholds ht₁ (mem_addTable.mpr (Or.inr rfl)) (by rw [length_snoc]; omega) hclean.tail
      hknown hs
    rw [List.append_assoc] at ht'
    exact ⟨ht', hholds'⟩

theorem Holds.descendPhys_isSome (h0 : 0 ∉ freeOf c) (p : List (Fin 512)) :
    ∀ {U : List Use} {q : List (Fin 512)} {k : Kernel} {table : Word},
    Holds c U l k → frameOf table = tableFrame c q → some q ∈ U → q.length + p.length ≤ 3 → CleanPath c U q p →
    addPath U q p <+: uses c → (addPath U q p).length ≤ (freeOf c).ncard →
    ∃ t k', BootTables.descendPhys k table p = some (t, k') := by
  induction p with
  | nil => exact fun _ _ _ _ _ _ _ => ⟨_, _, rfl⟩
  | cons i p ih =>
    intro U q k table h ht hq hlen hclean hknown hroom
    rw [List.length_cons] at hlen
    have hpre := prefix_addPath p (addTable U (q ++ [i])) (q ++ [i])
    obtain ⟨t₁, k₁, h₁⟩ := h.bootTable_isSome h0 i ht (by omega) (hpre.length_le.trans hroom)
    obtain ⟨ht₁, hholds⟩ := h.bootTable ht hq (by omega) hclean.head (hpre.trans hknown) h₁
    obtain ⟨t, k', hs⟩ := ih hholds ht₁ (mem_addTable.mpr (Or.inr rfl)) (by rw [length_snoc]; omega) hclean.tail
      hknown hroom
    refine ⟨t, k', ?_⟩
    rw [BootTables.descendPhys, h₁, Option.bind_some]
    exact hs

/-! ## A page -/

def pagePath (v : Word) : List (Fin 512) := pathOf v ++ [ptIndex v]

theorem pagePath_inj {a v : Word} : pagePath a = pagePath v ↔ vpn a = vpn v := by
  rw [pagePath, pagePath, List.append_singleton_inj, path_eq_iff]

theorem pagePath_length (v : Word) : (pagePath v).length = 4 := rfl

theorem path_mem_addPath (hroot : some [] ∈ U) (p : List (Fin 512)) : some p ∈ addPath U [] p :=
  (mem_addPath p hroot).mpr (Or.inr ⟨p, List.prefix_refl p, rfl⟩)

theorem Holds.map {pml4e v a : Word} (h : Holds c U l k) (ht : frameOf pml4e = tableFrame c [])
    (hclean : CleanPath c U [] (pathOf v)) (hknown : addPath U [] (pathOf v) <+: uses c)
    (hs : map pml4e k v a = some k') : Holds c (addPath U [] (pathOf v)) ((pagePath v, mkEntry a) :: l) k' := by
  rw [map_descendPhys, Option.map_eq_some_iff] at hs
  obtain ⟨⟨t, k₁⟩, hd, rfl⟩ := hs
  obtain ⟨ht', hholds⟩ := Holds.descendPhys (pathOf v) h ht h.root (pathOf_length v).le hclean hknown hd
  exact hholds.leaf (path_mem_addPath h.root _) (pathOf_length v) (by rw [putPhys, ht', List.nil_append]) rfl

theorem Holds.map_isSome {pml4e v : Word} (h : Holds c U l k) (h0 : 0 ∉ freeOf c)
    (ht : frameOf pml4e = tableFrame c []) (hclean : CleanPath c U [] (pathOf v))
    (hknown : addPath U [] (pathOf v) <+: uses c)
    (hroom : (addPath U [] (pathOf v)).length ≤ (freeOf c).ncard) (a : Word) : ∃ k', Boot.map pml4e k v a = some k' := by
  obtain ⟨t, k₁, hd⟩ := Holds.descendPhys_isSome h0 (pathOf v) h ht h.root (pathOf_length v).le hclean hknown hroom
  rw [map_descendPhys, hd]
  exact ⟨_, rfl⟩

/-- No word is left over where a page of the tables `T` is mapped. The first three links are
stored without a look at what is there. -/
def CleanLinks (c : Start) (T : Finset (List (Fin 512))) : Prop :=
  ∀ q i, q ++ [i] ∈ T → ¬ q ++ [i] <+: pathOf kernmem → isPresent (c.mem (tableFrame c q) i) = false

theorem CleanLinks.path {T : Finset (List (Fin 512))} {v : Word} (h : CleanLinks c T) (hkernel : kernelUses <+: U)
    (hv : tablesOf v ⊆ T) : CleanPath c U [] (pathOf v) := by
  intro p' i hp' hnot
  refine h p' i (hv (mem_tablesOf.mpr hp')) fun hpre => hnot (hkernel.subset ?_)
  exact mem_kernelUses.mpr ⟨p' ++ [i], mem_tablesOf.mpr hpre, rfl⟩

/-! ## Loops of pages -/

/-- The entries that a loop stores, on top of those before. -/
def addLeaves (l : Leaves) (path : Nat → List (Fin 512)) (a : Nat → Word) (m : Nat) : Leaves :=
  ((List.range m).map fun i => (path i, mkEntry (a i))).reverse ++ l

theorem addLeaves_succ (l : Leaves) (path : Nat → List (Fin 512)) (a : Nat → Word) (m : Nat) :
    addLeaves l path a (m + 1) = (path m, mkEntry (a m)) :: addLeaves l path a m := by
  rw [addLeaves, List.range_succ, List.map_append, List.reverse_append]
  rfl

section

variable {T : Finset (List (Fin 512))} {pml4e : Word} {v a : Nat → Word} {m : Nat}

theorem Holds.maps (h : Holds c U l k) (ht : frameOf pml4e = tableFrame c []) (hclean : CleanLinks c T)
    (hkernel : kernelUses <+: U) (hv : ∀ i < m, tablesOf (v i) ⊆ T) (hknown : addPages U v m <+: uses c)
    (hs : Transition.run (fun k i => Boot.map pml4e k (v i) (a i)) k (List.range m) = some k') :
    Holds c (addPages U v m) (addLeaves l (fun i => pagePath (v i)) a m) k' := by
  refine Transition.run_range
    (P := fun i k' => Holds c (addPages U v i) (addLeaves l (fun i => pagePath (v i)) a i) k') ?_ h hs
  intro i hi k₁ k₂ h₁ hstep
  have hpre := addPages_mono (U := U) (v := v) (Nat.succ_le_of_lt hi)
  rw [addPages_succ] at hpre ⊢
  rw [addLeaves_succ]
  exact h₁.map ht (hclean.path (hkernel.trans (prefix_addPages _ _ _)) (hv i hi)) (hpre.trans hknown) hstep

theorem Holds.maps_isSome (h : Holds c U l k) (h0 : 0 ∉ freeOf c) (ht : frameOf pml4e = tableFrame c [])
    (hclean : CleanLinks c T) (hkernel : kernelUses <+: U) (hv : ∀ i < m, tablesOf (v i) ⊆ T)
    (hknown : addPages U v m <+: uses c) (hroom : (addPages U v m).length ≤ (freeOf c).ncard) (a : Nat → Word) :
    ∃ k', Transition.run (fun k i => Boot.map pml4e k (v i) (a i)) k (List.range m) = some k' := by
  have hstep : ∀ i < m, ∀ k₁, Holds c (addPages U v i) (addLeaves l (fun i => pagePath (v i)) a i) k₁ →
      ∃ k₂, Boot.map pml4e k₁ (v i) (a i) = some k₂ ∧
        Holds c (addPages U v (i + 1)) (addLeaves l (fun i => pagePath (v i)) a (i + 1)) k₂ := by
    intro i hi k₁ h₁
    have hpre := addPages_mono (U := U) (v := v) (Nat.succ_le_of_lt hi)
    rw [addPages_succ] at hpre ⊢
    have hpath := hclean.path (hkernel.trans (prefix_addPages U v i)) (hv i hi)
    obtain ⟨k₂, hmap⟩ := h₁.map_isSome h0 ht hpath (hpre.trans hknown) (hpre.length_le.trans hroom) (a i)
    refine ⟨k₂, hmap, ?_⟩
    rw [addLeaves_succ]
    exact h₁.map ht hpath (hpre.trans hknown) hmap
  obtain ⟨k', hs, -⟩ := Transition.run_range_some
    (P := fun i k' => Holds c (addPages U v i) (addLeaves l (fun i => pagePath (v i)) a i) k') m hstep h
  exact ⟨k', hs⟩

end

/-! ## The tables of the kernel -/

theorem prefix_kernelUses (c : Start) : kernelUses <+: tableUses c :=
  (prefix_addPages _ _ _).trans (prefix_windowUses c)

theorem Holds.congr (h : Holds c U l k) (hmem : k'.mem = k.mem) (hmap : k'.memMap = k.memMap) : Holds c U l k' :=
  ⟨⟨h.known, h.room, h.root, h.closed, by rw [hmem]; exact h.mem⟩, by rw [hmap]; exact h.free, h.written,
    by rw [hmem]; exact h.others⟩

theorem holds_root (hs : c.kernel.pageAlloc = some (w, k')) :
    frameOf w = tableFrame c [] ∧ Holds c [some []] [] k' := by
  have hfree : freeFrames c.kernel.memMap = rest c 0 := (rest_zero c).symm
  obtain ⟨hroom, rfl, rfl, hfree'⟩ := pageAlloc_frame hfree hs
  have hknown : [some []] <+: uses c := by
    have hpre : [some []] <+: kernelUses := prefix_addPath _ _ _
    exact (hpre.trans (prefix_kernelUses c)).trans (prefix_tableUses c)
  have hnext : tableFrame c [] = frame c 0 := tableFrame_next (U := []) hknown
  refine ⟨by rw [frameOf_frameAddr (freeFrames_lt (frame_mem hroom)), hnext],
    ⟨hknown, hroom, List.mem_singleton_self _, ?_, ?_⟩, hfree', ?_, fun f _ => rfl⟩
  · intro q i hq
    simp at hq
  · intro q i hq
    obtain rfl : q = [] := by simpa using hq
    rw [stored_none (by simp) (by simp), Option.getD_none]
    rfl
  · intro q i w hw
    cases hw

def imagePath (i : Nat) : List (Fin 512) := pathOf kernmem ++ [ptIndex (imagePage i)]

def imageLeaves (c : Start) (m : Nat) : Leaves :=
  addLeaves [] imagePath (fun i => c.physbase + BitVec.ofNat 64 (i * 0x1000)) m

theorem Holds.image {pt : Word} (h : Holds c kernelUses [] k) (ht : frameOf pt = tableFrame c (pathOf kernmem))
    (m : Nat) : Holds c kernelUses (imageLeaves c m) ((List.range m).foldl (mapKernelPage pt c.physbase) k) := by
  induction m with
  | zero => exact h
  | succ m ih =>
    rw [imageLeaves, addLeaves_succ, ← imageLeaves, List.range_succ, List.foldl_append]
    refine ih.leaf (mem_kernelUses.mpr ⟨_, mem_tablesOf.mpr (List.prefix_refl _), rfl⟩) (pathOf_length _) ?_ rfl
    rw [← ht]
    rfl

/-- The words that stand in the tables behind `map_kernel`. -/
theorem mapKernel_holds {pml4e : Word}
    (hs : mapKernel c.kernel c.physbase (kerPhysfree c.physfree) = some (pml4e, k)) :
    frameOf pml4e = tableFrame c [] ∧
      Holds c kernelUses (imageLeaves c (kernelPages c.physbase (kerPhysfree c.physfree))) k := by
  simp only [mapKernel, bind, Option.bind_eq_some_iff] at hs
  obtain ⟨⟨p₀, k₀⟩, h₀, ⟨p₁, k₁⟩, h₁, ⟨p₂, k₂⟩, h₂, ⟨p₃, k₃⟩, h₃, hs⟩ := hs
  obtain ⟨rfl, rfl⟩ := Prod.mk.inj (Option.some.inj hs)
  have hknown : kernelUses <+: uses c := (prefix_kernelUses c).trans (prefix_tableUses c)
  obtain ⟨ht₀, hb₀⟩ := holds_root h₀
  obtain ⟨ht₁, hb₁⟩ := hb₀.newTable ht₀ (by decide) (by decide) (by decide)
    (List.IsPrefix.trans (by decide) hknown) h₁
  obtain ⟨ht₂, hb₂⟩ := hb₁.newTable ht₁ (by decide) (by decide) (by decide)
    (List.IsPrefix.trans (by decide) hknown) h₂
  obtain ⟨ht₃, hb₃⟩ := hb₂.newTable ht₂ (by decide) (by decide) (by decide)
    (List.IsPrefix.trans (by decide) hknown) h₃
  exact ⟨ht₀, Holds.image hb₃ ht₃ _⟩

/-! ## The window and the screen -/

def windowLeaves (c : Start) : Leaves :=
  addLeaves (imageLeaves c (kernelPages c.physbase (kerPhysfree c.physfree))) (fun i => pagePath (windowPage i))
    (fun i => BitVec.ofNat 64 (i * 0x1000)) (windowPages c.bootMap.maxPhys)

/-- The entries of pages that are stored before the kernel stack. -/
def identityLeaves (c : Start) : Leaves :=
  addLeaves (windowLeaves c) (fun i => pagePath (vgaPage (vgaOf c) i))
    (fun i => VGA_BUFFER + BitVec.ofNat 64 (i * 0x1000)) vgaPages

theorem tablesOf_subset {v : Nat → Word} {m i : Nat} (hi : i < m) : tablesOf (v i) ⊆ tablesUpTo v m :=
  fun _ hq => Finset.mem_biUnion.mpr ⟨i, Finset.mem_range.mpr hi, hq⟩

theorem windowTables_subset (c : Start) :
    ∀ i < windowPages c.bootMap.maxPhys, tablesOf (windowPage i) ⊆ tablesOfStart c := fun _ hi =>
  (tablesOf_subset hi).trans (Finset.subset_union_right.trans Finset.subset_union_left)

theorem vgaTables_subset (c : Start) : ∀ i < vgaPages, tablesOf (vgaPage (vgaOf c) i) ⊆ tablesOfStart c := fun _ hi =>
  (tablesOf_subset (v := vgaPage (vgaOf c)) hi).trans Finset.subset_union_right

section

variable {pml4e : Word}

/-- The words that stand in the tables behind `identity_mapping`. -/
theorem identity_holds (hclean : CleanLinks c (tablesOfStart c))
    (hkernel : mapKernel c.kernel c.physbase (kerPhysfree c.physfree) = some (pml4e, k₁))
    (hident : identityMapping pml4e (vgaOf c) c.bootMap.maxPhys k₁ = some k) :
    frameOf pml4e = tableFrame c [] ∧ k.curPml4eVirt = pml4e ||| DUMB_MAPPING_VIRT ∧
      Holds c (tableUses c) (identityLeaves c) k := by
  obtain ⟨ht, h₁⟩ := mapKernel_holds hkernel
  obtain ⟨k₂, k₃, hwindow, hvga, rfl⟩ := identityMapping_stages.mp hident
  have h₂ := h₁.maps (v := windowPage) (a := fun i => BitVec.ofNat 64 (i * 0x1000)) ht hclean (List.prefix_refl _)
    (windowTables_subset c) ((prefix_windowUses c).trans (prefix_tableUses c)) hwindow
  have h₃ := h₂.maps (v := vgaPage (vgaOf c)) (a := fun i => VGA_BUFFER + BitVec.ofNat 64 (i * 0x1000)) ht hclean
    (prefix_addPages _ _ _) (vgaTables_subset c) (prefix_tableUses c) hvga
  exact ⟨ht, rfl, h₃.congr rfl rfl⟩

theorem identity_isSome (h0 : 0 ∉ freeOf c) (hroom : (tableUses c).length ≤ (freeOf c).ncard)
    (hclean : CleanLinks c (tablesOfStart c)) : ∃ pml4e k₁ k,
      mapKernel c.kernel c.physbase (kerPhysfree c.physfree) = some (pml4e, k₁) ∧
        identityMapping pml4e (vgaOf c) c.bootMap.maxPhys k₁ = some k := by
  have hwindowRoom := (prefix_windowUses c).length_le.trans hroom
  have hkernelRoom : 4 ≤ (freeOf c).ncard := (prefix_kernelUses c).length_le.trans hroom
  obtain ⟨pml4e, k₁, hkernel⟩ := mapKernel_isSome (k := c.kernel) h0 hkernelRoom c.physbase (kerPhysfree c.physfree)
  obtain ⟨ht, h₁⟩ := mapKernel_holds hkernel
  obtain ⟨k₂, hwindow⟩ := h₁.maps_isSome h0 ht hclean (List.prefix_refl _) (windowTables_subset c)
    ((prefix_windowUses c).trans (prefix_tableUses c)) hwindowRoom (fun i => BitVec.ofNat 64 (i * 0x1000))
  have h₂ := h₁.maps ht hclean (List.prefix_refl _) (windowTables_subset c)
    ((prefix_windowUses c).trans (prefix_tableUses c)) hwindow
  obtain ⟨k₃, hvga⟩ := h₂.maps_isSome h0 ht hclean (prefix_addPages _ _ _) (vgaTables_subset c) (prefix_tableUses c)
    hroom (fun i => VGA_BUFFER + BitVec.ofNat 64 (i * 0x1000))
  exact ⟨pml4e, k₁, _, hkernel, identityMapping_stages.mpr ⟨k₂, k₃, hwindow, hvga, rfl⟩⟩

end

/-! ## The kernel stack -/

theorem addPath_append (p₁ p₂ : List (Fin 512)) : ∀ (U : List Use) (q : List (Fin 512)),
    addPath U q (p₁ ++ p₂) = addPath (addPath U q p₁) (q ++ p₁) p₂ := by
  induction p₁ with
  | nil =>
    intro U q
    rw [List.append_nil]
    rfl
  | cons i p₁ ih =>
    intro U q
    rw [List.cons_append, addPath, ih, addPath, List.append_assoc]
    rfl

theorem length_addPath_le (p : List (Fin 512)) : ∀ (U : List Use) (q : List (Fin 512)),
    (addPath U q p).length ≤ U.length + p.length := by
  induction p with
  | nil => exact fun _ _ => le_rfl
  | cons i p ih =>
    intro U q
    have hle := ih (addTable U (q ++ [i])) (q ++ [i])
    have hadd : (addTable U (q ++ [i])).length ≤ U.length + 1 := by
      rw [addTable]
      split
      · omega
      · rw [List.length_append, List.length_singleton]
    rw [addPath, List.length_cons]
    omega

theorem descend_append (p₁ p₂ : List (Fin 512)) : ∀ (k : Kernel) (table : Word),
    descend k table (p₁ ++ p₂) = (descend k table p₁).bind fun r => descend r.2 r.1 p₂ := by
  induction p₁ with
  | nil => exact fun _ _ => rfl
  | cons i p₁ ih =>
    intro k table
    rw [List.cons_append, descend, descend, Option.bind_assoc]
    congr 1
    funext r
    exact ih r.2 r.1

/-- One level of `map_process_specific`. Through the window a table above 256 MB is taken for
one below. -/
theorem Holds.nextTable {table t : Word} (h : Holds c U l k) (ht : frameAt table = tableFrame c q)
    (hq : some q ∈ U) (hlen : q.length < 3)
    (hclean : some (q ++ [i]) ∉ U → isPresent (c.mem (tableFrame c q) i) = false)
    (hknown : addTable U (q ++ [i]) <+: uses c) (hs : nextTable k table i = some (t, k')) :
    frameAt t = tableFrame c (q ++ [i]) % WINDOW_FRAMES ∧ Holds c (addTable U (q ++ [i])) l k' := by
  rw [PageTable.nextTable, Kernel.entry, ht] at hs
  by_cases hi : some (q ++ [i]) ∈ U
  · rw [h.linked hlen hi, if_pos (isPresent_mkEntry _)] at hs
    obtain ⟨rfl, rfl⟩ := Prod.mk.inj (Option.some.inj hs)
    rw [addTable_of_mem hi, frameAt_or_mod, frameOf_getAddress, frameOf_mkEntry, h.frameOf_table hi]
    exact ⟨rfl, h⟩
  · rw [h.unlinked hlen hq hi, hclean hi, if_neg Bool.false_ne_true, Option.map_eq_some_iff] at hs
    obtain ⟨⟨p, k₁⟩, halloc, hres⟩ := hs
    obtain ⟨rfl, rfl⟩ := Prod.mk.inj hres
    rw [addTable_of_notMem hi] at hknown ⊢
    have hmem : (k₁.setEntry table i (mkEntry p)).mem = put k₁.mem (tableFrame c q) i (mkEntry p) := by
      rw [Kernel.setEntry, ht]
    obtain ⟨hframe, hholds⟩ := h.link halloc hq hlen hi hknown hmem rfl
    exact ⟨by rw [frameAt_or_mod, hframe], hholds⟩

theorem Holds.nextTable_isSome {table : Word} (h : Holds c U l k) (h0 : 0 ∉ freeOf c) (i : Fin 512)
    (ht : frameAt table = tableFrame c q) (hlen : q.length < 3)
    (hroom : (addTable U (q ++ [i])).length ≤ (freeOf c).ncard) :
    ∃ t k', PageTable.nextTable k table i = some (t, k') := by
  rw [PageTable.nextTable, Kernel.entry]
  by_cases hi : some (q ++ [i]) ∈ U
  · rw [ht, h.linked hlen hi, if_pos (isPresent_mkEntry _)]
    exact ⟨_, _, rfl⟩
  · rw [addTable_of_notMem hi, List.length_append] at hroom
    obtain ⟨p, k₁, halloc⟩ := pageAlloc_rest_isSome h0 h.free hroom
    split
    · exact ⟨_, _, rfl⟩
    · rw [halloc]
      exact ⟨_, _, rfl⟩

/-- The tables that the path `p` leaves again lie below 256 MB. -/
def LowAlong (c : Start) (q p : List (Fin 512)) : Prop :=
  ∀ p' i, p' ++ [i] <+: p → tableFrame c (q ++ p') < WINDOW_FRAMES

theorem LowAlong.head (h : LowAlong c q (i :: p)) : tableFrame c q < WINDOW_FRAMES := by
  have hfirst := h [] i (List.cons_prefix_cons.mpr ⟨rfl, List.nil_prefix⟩)
  rw [List.append_nil] at hfirst
  exact hfirst

theorem LowAlong.tail (h : LowAlong c q (i :: p)) : LowAlong c (q ++ [i]) p := by
  intro p' j hp'
  have hnext := h (i :: p') j (List.cons_prefix_cons.mpr ⟨rfl, hp'⟩)
  rw [List.append_assoc]
  exact hnext

theorem Holds.descend (p : List (Fin 512)) : ∀ {U : List Use} {q : List (Fin 512)} {k : Kernel} {table t : Word},
    Holds c U l k → frameAt table = tableFrame c q % WINDOW_FRAMES → some q ∈ U → q.length + p.length ≤ 3 →
    LowAlong c q p → CleanPath c U q p → addPath U q p <+: uses c → descend k table p = some (t, k') →
    frameAt t = tableFrame c (q ++ p) % WINDOW_FRAMES ∧ Holds c (addPath U q p) l k' := by
  induction p with
  | nil =>
    intro U q k table t h ht _ _ _ _ _ hs
    obtain ⟨rfl, rfl⟩ := Prod.mk.inj (Option.some.inj hs)
    rw [List.append_nil]
    exact ⟨ht, h⟩
  | cons i p ih =>
    intro U q k table t h ht hq hlen hlow hclean hknown hs
    rw [List.length_cons] at hlen
    rw [Nat.mod_eq_of_lt hlow.head] at ht
    rw [PageMap.descend, Option.bind_eq_some_iff] at hs
    obtain ⟨⟨t₁, k₁⟩, h₁, hs⟩ := hs
    obtain ⟨ht₁, hholds⟩ := h.nextTable ht hq (by omega) hclean.head ((prefix_addPath _ _ _).trans hknown) h₁
    obtain ⟨ht', hholds'⟩ := ih hholds ht₁ (mem_addTable.mpr (Or.inr rfl)) (by rw [length_snoc]; omega) hlow.tail
      hclean.tail hknown hs
    rw [List.append_assoc] at ht'
    exact ⟨ht', hholds'⟩

theorem Holds.descend_isSome (h0 : 0 ∉ freeOf c) (p : List (Fin 512)) :
    ∀ {U : List Use} {q : List (Fin 512)} {k : Kernel} {table : Word},
    Holds c U l k → frameAt table = tableFrame c q % WINDOW_FRAMES → some q ∈ U → q.length + p.length ≤ 3 →
    LowAlong c q p → CleanPath c U q p → addPath U q p <+: uses c → (addPath U q p).length ≤ (freeOf c).ncard →
    ∃ t k', PageMap.descend k table p = some (t, k') := by
  induction p with
  | nil => exact fun _ _ _ _ _ _ _ _ => ⟨_, _, rfl⟩
  | cons i p ih =>
    intro U q k table h ht hq hlen hlow hclean hknown hroom
    rw [List.length_cons] at hlen
    rw [Nat.mod_eq_of_lt hlow.head] at ht
    have hpre := prefix_addPath p (addTable U (q ++ [i])) (q ++ [i])
    obtain ⟨t₁, k₁, h₁⟩ := h.nextTable_isSome h0 i ht (by omega) (hpre.length_le.trans hroom)
    obtain ⟨ht₁, hholds⟩ := h.nextTable ht hq (by omega) hclean.head (hpre.trans hknown) h₁
    obtain ⟨t, k', hs⟩ := ih hholds ht₁ (mem_addTable.mpr (Or.inr rfl)) (by rw [length_snoc]; omega) hlow.tail
      hclean.tail hknown hroom
    refine ⟨t, k', ?_⟩
    rw [PageMap.descend, h₁, Option.bind_some]
    exact hs

/-- The tables that `map_process` goes through for the kernel stack lie in the window. -/
def StackLow (c : Start) : Prop := ∀ q ∈ tablesOf (stackOf c), tableFrame c q < WINDOW_FRAMES

noncomputable instance decidableStackLow (c : Start) : Decidable (StackLow c) :=
  inferInstanceAs (Decidable (∀ q ∈ tablesOf (stackOf c), _))

/-- The path up to the first table above 256 MB, beyond which it is lost. -/
noncomputable def lowPart (c : Start) : List (Fin 512) → List (Fin 512) → List (Fin 512)
  | _, [] => []
  | q, i :: p => if tableFrame c q < WINDOW_FRAMES then i :: lowPart c (q ++ [i]) p else []

theorem lowPart_initial (p : List (Fin 512)) : ∀ q, lowPart c q p <+: p := by
  induction p with
  | nil => exact fun _ => List.prefix_refl _
  | cons i p ih =>
    intro q
    rw [lowPart]
    split
    · exact List.cons_prefix_cons.mpr ⟨rfl, ih _⟩
    · exact List.nil_prefix

theorem lowAlong_lowPart (p : List (Fin 512)) : ∀ q, LowAlong c q (lowPart c q p) := by
  induction p with
  | nil =>
    intro q p' i hp'
    exact absurd (List.prefix_nil.mp hp') (by simp)
  | cons i p ih =>
    intro q p' j hp'
    rw [lowPart] at hp'
    split at hp'
    · rename_i hlow
      cases p' with
      | nil =>
        rw [List.append_nil]
        exact hlow
      | cons i' p' =>
        obtain ⟨rfl, hp'⟩ := List.cons_prefix_cons.mp hp'
        have hnext := ih (q ++ [i']) p' j hp'
        rw [List.append_assoc] at hnext
        exact hnext
    · exact absurd (List.prefix_nil.mp hp') (by simp)

theorem lowPart_eq (p : List (Fin 512)) : ∀ q, LowAlong c q p → lowPart c q p = p := by
  induction p with
  | nil => exact fun _ _ => rfl
  | cons i p ih =>
    intro q h
    rw [lowPart, if_pos h.head, ih _ h.tail]

/-- The tables that `map_process` comes to on the path of the kernel stack. -/
noncomputable def stackPath (c : Start) : List (Fin 512) := lowPart c [] (pathOf (stackOf c))

noncomputable def linkedUses (c : Start) : List Use := addPath (tableUses c ++ [none]) [] (stackPath c)

@[irreducible] noncomputable def linkedTables (c : Start) : Finset (List (Fin 512)) :=
  tablesOfStart c ∪ (stackPath c).inits.toFinset

theorem mem_linkedTables : q ∈ linkedTables c ↔ q ∈ tablesOfStart c ∨ q <+: stackPath c := by
  rw [linkedTables, Finset.mem_union, List.mem_toFinset, List.mem_inits]

theorem some_mem_linkedUses : some q ∈ linkedUses c ↔ q ∈ linkedTables c := by
  rw [linkedUses, mem_addPath _ (List.mem_append_left _ (root_mem_tableUses c)), List.mem_append, some_mem_tableUses,
    mem_linkedTables]
  simp

theorem prefix_linkedUses (c : Start) : linkedUses c <+: uses c := by
  obtain ⟨p, hp⟩ := lowPart_initial (c := c) (pathOf (stackOf c)) []
  rw [uses, ← hp, addPath_append]
  exact prefix_addPath _ _ _

theorem StackLow.along (h : StackLow c) : LowAlong c [] (pathOf (stackOf c)) :=
  fun p' _ hp' => h p' (mem_tablesOf.mpr ((List.prefix_append p' _).trans hp'))

theorem stackPath_of_low (h : StackLow c) : stackPath c = pathOf (stackOf c) := lowPart_eq _ _ h.along

theorem linkedUses_of_low (h : StackLow c) : linkedUses c = uses c := by
  rw [linkedUses, stackPath_of_low h, uses]

theorem linkedTables_of_low (h : StackLow c) : linkedTables c = allTables c := by
  ext q
  rw [← some_mem_linkedUses, linkedUses_of_low h, some_mem_uses]

theorem tables_subset (c : Start) : tablesOfStart c ⊆ linkedTables c :=
  fun _ hq => mem_linkedTables.mpr (Or.inl hq)

theorem stack_subset (c : Start) : tablesOf (stackOf c) ⊆ allTables c := by
  rw [allTables]
  exact Finset.subset_union_right

theorem CleanLinks.mono {S T : Finset (List (Fin 512))} (h : CleanLinks c T) (hsub : S ⊆ T) : CleanLinks c S :=
  fun q i hq hnot => h q i (hsub hq) hnot

theorem stack_clean (hclean : CleanLinks c (linkedTables c)) :
    CleanPath c (tableUses c ++ [none]) [] (stackPath c) := by
  intro p' i hp' hnot
  refine hclean p' i (mem_linkedTables.mpr (Or.inr hp')) fun hpre => hnot ?_
  refine ((prefix_kernelUses c).trans (List.prefix_append _ _)).subset ?_
  exact mem_kernelUses.mpr ⟨p' ++ [i], mem_tablesOf.mpr hpre, rfl⟩

/-! ## A table above 256 MB -/

/-- The frames that `map_process` comes to instead of a table above 256 MB: the one that has
its window address, and those behind present words and behind the frames taken next. None is
a table. -/
structure StrayFrames (c : Start) (D : Set Nat) : Prop where
  start : tableFrame c (stackPath c) % WINDOW_FRAMES ∈ D
  follow : ∀ b ∈ D, ∀ i ∈ pathOf (stackOf c), isPresent (c.mem b i) = true →
    frameOf (c.mem b i) % WINDOW_FRAMES ∈ D
  fresh : ∀ m, (linkedUses c).length ≤ m → m ≤ (tableUses c).length + 3 → m < (freeOf c).ncard →
    frame c m % WINDOW_FRAMES ∈ D
  apart : ∀ q ∈ linkedTables c, tableFrame c q ∉ D

/-- `map_process` comes to no table in place of another. -/
def Apart (c : Start) : Prop := ¬ StackLow c → ∃ D, StrayFrames c D

/-- So it is when all free frames lie above 256 MB. -/
theorem apart_of_above (hroom : (uses c).length ≤ (freeOf c).ncard) (h : ∀ f ∈ freeOf c, WINDOW_FRAMES ≤ f) :
    Apart c := by
  have hmod : ∀ f, f % WINDOW_FRAMES < WINDOW_FRAMES := fun f => Nat.mod_lt f (by decide)
  refine fun _ => ⟨{b | b < WINDOW_FRAMES}, hmod _, fun _ _ _ _ _ => hmod _, fun _ _ _ _ => hmod _, ?_⟩
  intro q hq hlt
  have hindex := idxOf_lt (prefix_linkedUses c) (some_mem_linkedUses.mpr hq)
  have hfree := frame_mem (hindex.trans_le ((prefix_linkedUses c).length_le.trans hroom))
  exact absurd (h _ hfree) (not_le.mpr hlt)

section

variable {D : Set Nat}

/-- Words beside the tables may change. -/
theorem Words.off (h : Words c U l k) {b : Nat} (hmem : k'.mem = put k.mem b i w)
    (hb : ∀ q, some q ∈ U → tableFrame c q ≠ b) : Words c U l k' := by
  refine ⟨h.known, h.room, h.root, h.closed, fun q j hq => ?_⟩
  rw [hmem, RadixForest.put_of_ne _ (hb q hq)]
  exact h.mem q j hq

/-- Behind the first table above 256 MB `n` frames have been taken, and what stands in the
frames `D` leads to no others. -/
structure Stray (c : Start) (D : Set Nat) (l : Leaves) (n : Nat) (k : Kernel) : Prop where
  words : Words c (linkedUses c) l k
  free : freeFrames k.memMap = rest c n
  past : (linkedUses c).length ≤ n
  left : ∀ b ∈ D, ∀ i, k.mem b i = c.mem b i ∨ frameOf (k.mem b i) % WINDOW_FRAMES ∈ D

theorem Stray.of_holds (hD : StrayFrames c D) (h : Holds c (linkedUses c) l k) :
    Stray c D l (linkedUses c).length k := by
  refine ⟨h.toWords, h.free, le_rfl, fun b hb i => Or.inl (congrFun (h.others b fun q hq heq => ?_) i)⟩
  exact hD.apart q (some_mem_linkedUses.mp hq) (heq ▸ hb)

theorem StrayFrames.off (hD : StrayFrames c D) {b : Nat} (hb : b ∈ D) :
    ∀ q, some q ∈ linkedUses c → tableFrame c q ≠ b :=
  fun q hq heq => hD.apart q (some_mem_linkedUses.mp hq) (heq ▸ hb)

theorem Stray.nextTable {table t : Word} (hD : StrayFrames c D) (h : Stray c D l n k) (ht : frameAt table ∈ D)
    (hi : i ∈ pathOf (stackOf c)) (hn : n ≤ (tableUses c).length + 3)
    (hs : nextTable k table i = some (t, k')) : frameAt t ∈ D ∧ ∃ n' ≤ n + 1, Stray c D l n' k' := by
  rw [PageTable.nextTable, Kernel.entry] at hs
  by_cases hp : isPresent (k.mem (frameAt table) i) = true
  · rw [if_pos hp] at hs
    obtain ⟨rfl, rfl⟩ := Prod.mk.inj (Option.some.inj hs)
    refine ⟨?_, n, n.le_succ, h⟩
    rw [frameAt_or_mod, frameOf_getAddress]
    rcases h.left _ ht i with heq | hin
    · rw [heq] at hp ⊢
      exact hD.follow _ ht i hi hp
    · exact hin
  · rw [if_neg hp, Option.map_eq_some_iff] at hs
    obtain ⟨⟨p, k₁⟩, halloc, hres⟩ := hs
    obtain ⟨rfl, rfl⟩ := Prod.mk.inj hres
    obtain ⟨hroom, rfl, rfl, hfree⟩ := pageAlloc_frame h.free halloc
    have hframe : frameOf (frameAddr (frame c n)) = frame c n :=
      frameOf_frameAddr (freeFrames_lt (frame_mem hroom))
    have hfresh := hD.fresh n h.past hn hroom
    refine ⟨by rw [frameAt_or_mod, hframe]; exact hfresh, n + 1, le_rfl, ?_⟩
    refine ⟨h.words.off rfl (hD.off ht), hfree, h.past.trans n.le_succ, fun b hb j => ?_⟩
    change put k.mem (frameAt table) i (mkEntry (frameAddr (frame c n))) b j = c.mem b j ∨
      frameOf (put k.mem (frameAt table) i (mkEntry (frameAddr (frame c n))) b j) % WINDOW_FRAMES ∈ D
    by_cases hsame : b = frameAt table ∧ j = i
    · obtain ⟨rfl, rfl⟩ := hsame
      rw [RadixForest.put_self, frameOf_mkEntry, hframe]
      exact Or.inr hfresh
    · have hkeep : put k.mem (frameAt table) i (mkEntry (frameAddr (frame c n))) b j = k.mem b j := by
        by_cases hb' : b = frameAt table
        · subst hb'
          exact RadixForest.put_index_of_ne _ _ (fun hj => hsame ⟨rfl, hj⟩) _
        · rw [RadixForest.put_of_ne _ hb']
      rw [hkeep]
      exact h.left b hb j

theorem Stray.descend (hD : StrayFrames c D) (p : List (Fin 512)) : ∀ {n : Nat} {k : Kernel} {table t : Word},
    Stray c D l n k → frameAt table ∈ D → p ⊆ pathOf (stackOf c) → n + p.length ≤ (tableUses c).length + 4 →
    PageMap.descend k table p = some (t, k') → frameAt t ∈ D ∧ ∃ n', Stray c D l n' k' := by
  induction p with
  | nil =>
    intro n k table t h ht _ _ hs
    obtain ⟨rfl, rfl⟩ := Prod.mk.inj (Option.some.inj hs)
    exact ⟨ht, n, h⟩
  | cons i p ih =>
    intro n k table t h ht hsub hn hs
    obtain ⟨hi, hsub⟩ := List.cons_subset.mp hsub
    rw [List.length_cons] at hn
    rw [PageMap.descend, Option.bind_eq_some_iff] at hs
    obtain ⟨⟨t₁, k₁⟩, h₁, hs⟩ := hs
    obtain ⟨ht₁, n₁, hn₁, hstray⟩ := h.nextTable hD ht hi (by omega) h₁
    exact ih hstray ht₁ hsub (by omega) hs

end

/-! ## The whole boot -/

/-- The entries of pages behind the whole boot, when the stack's tables lie in the window. -/
noncomputable def bootLeaves (c : Start) : Leaves :=
  (pagePath (stackOf c), mkEntry (frameAddr (frame c (tableUses c).length))) :: identityLeaves c

noncomputable def finalLeaves (c : Start) : Leaves := if StackLow c then bootLeaves c else identityLeaves c

/-- The words that stand in the tables behind the boot. -/
theorem stack_words {pml4e : Word} {k₂ : Kernel} (hclean : CleanLinks c (linkedTables c)) (hapart : Apart c)
    (hkernel : mapKernel c.kernel c.physbase (kerPhysfree c.physfree) = some (pml4e, k₁))
    (hident : identityMapping pml4e (vgaOf c) c.bootMap.maxPhys k₁ = some k₂)
    (hs : setupKernelStack k₂ (stackOf c) = some k) :
    frameOf pml4e = tableFrame c [] ∧ Words c (linkedUses c) (finalLeaves c) k := by
  obtain ⟨ht, hroot, h₂⟩ := identity_holds (hclean.mono (tables_subset c)) hkernel hident
  rw [setupKernelStack] at hs
  obtain ⟨⟨p, k₃⟩, halloc, hmap⟩ := Option.bind_eq_some_iff.mp hs
  change mapProcess k₃ (stackOf c) p = some k at hmap
  obtain ⟨rfl, h₃⟩ := h₂.take halloc (prefix_stackUses c)
  have ht₃ : frameAt k₃.curPml4eVirt = tableFrame c [] % WINDOW_FRAMES := by
    obtain ⟨g, -, -, rfl⟩ := pageAlloc_some halloc
    rw [hroot, frameAt_or_mod, ht]
  obtain ⟨hcmem, hcmap, -⟩ := charge_spec k₃ k₃.currentTask
  rw [mapProcess, mapProcessSpecific_eq, Option.map_eq_some_iff] at hmap
  obtain ⟨⟨t, k₅⟩, hd, rfl⟩ := hmap
  obtain ⟨p₂, hp₂⟩ := lowPart_initial (c := c) (pathOf (stackOf c)) []
  change stackPath c ++ p₂ = pathOf (stackOf c) at hp₂
  have hlen : (stackPath c).length + p₂.length = 3 := by
    rw [← List.length_append, hp₂, pathOf_length]
  rw [← hp₂, descend_append, Option.bind_eq_some_iff] at hd
  obtain ⟨⟨t₁, k₄⟩, hd₁, hd₂⟩ := hd
  obtain ⟨ht₁, h₄⟩ := Holds.descend (stackPath c) (h₃.congr hcmem hcmap) ht₃ h₃.root
    (by rw [List.length_nil]; omega) (lowAlong_lowPart _ _) (stack_clean hclean) (prefix_linkedUses c) hd₁
  rw [List.nil_append] at ht₁
  refine ⟨ht, ?_⟩
  by_cases hlow : StackLow c
  · have hpath := stackPath_of_low hlow
    obtain rfl : p₂ = [] := by
      rw [hpath] at hp₂
      exact List.append_right_eq_self.mp hp₂
    obtain ⟨rfl, rfl⟩ := Prod.mk.inj (Option.some.inj hd₂)
    rw [hpath, Nat.mod_eq_of_lt (hlow _ (mem_tablesOf.mpr (List.prefix_refl _)))] at ht₁
    rw [hpath] at h₄
    have hleaf : Holds c _ (bootLeaves c) (k₄.setEntry t₁ (ptIndex (stackOf c))
        (mkEntry (frameAddr (frame c (tableUses c).length)))) :=
      h₄.leaf (path_mem_addPath h₃.root _) (pathOf_length _) (by rw [Kernel.setEntry, ht₁]) rfl
    rw [finalLeaves, if_pos hlow, linkedUses, hpath]
    exact hleaf.toWords
  · obtain ⟨D, hD⟩ := hapart hlow
    have hle : (linkedUses c).length ≤ (tableUses c).length + 1 + (stackPath c).length := by
      have hadd := length_addPath_le (stackPath c) (tableUses c ++ [none]) []
      rw [List.length_append, List.length_singleton] at hadd
      exact hadd
    have hsub : p₂ ⊆ pathOf (stackOf c) := hp₂ ▸ List.subset_append_right _ _
    obtain ⟨ht', n, hstray⟩ := (Stray.of_holds hD h₄).descend hD p₂ (ht₁ ▸ hD.start) hsub (by omega) hd₂
    rw [finalLeaves, if_neg hlow]
    exact hstray.words.off rfl (hD.off ht')

/-- With a frame for each table and for the stack the boot does not fail. -/
theorem stack_isSome (hclean : CleanLinks c (allTables c)) (hlow : StackLow c) (h0 : 0 ∉ freeOf c)
    (hroom : (uses c).length ≤ (freeOf c).ncard) : ∃ pml4e k₁ k₂ k,
      mapKernel c.kernel c.physbase (kerPhysfree c.physfree) = some (pml4e, k₁) ∧
        identityMapping pml4e (vgaOf c) c.bootMap.maxPhys k₁ = some k₂ ∧ setupKernelStack k₂ (stackOf c) = some k := by
  rw [← linkedTables_of_low hlow] at hclean
  have hclean' : CleanLinks c (tablesOfStart c) := hclean.mono (tables_subset c)
  have hlen := length_tableUses_lt c
  obtain ⟨pml4e, k₁, k₂, hkernel, hident⟩ := identity_isSome h0 (by omega) hclean'
  obtain ⟨ht, hroot, h₂⟩ := identity_holds hclean' hkernel hident
  obtain ⟨p, k₃, halloc⟩ := pageAlloc_rest_isSome h0 h₂.free (by omega)
  obtain ⟨-, h₃⟩ := h₂.take halloc (prefix_stackUses c)
  have ht₃ : frameAt k₃.curPml4eVirt = tableFrame c [] % WINDOW_FRAMES := by
    obtain ⟨g, -, -, rfl⟩ := pageAlloc_some halloc
    rw [hroot, frameAt_or_mod, ht]
  have hpath := stack_clean hclean
  rw [stackPath_of_low hlow] at hpath
  obtain ⟨hcmem, hcmap, -⟩ := charge_spec k₃ k₃.currentTask
  obtain ⟨t, k₄, hd⟩ := Holds.descend_isSome h0 (pathOf (stackOf c)) (h₃.congr hcmem hcmap) ht₃ h₃.root
    (pathOf_length (stackOf c)).le hlow.along hpath (List.prefix_refl _) hroom
  refine ⟨pml4e, k₁, k₂, k₄.setEntry t (ptIndex (stackOf c)) (mkEntry p), hkernel, hident, ?_⟩
  have hstack : mapProcess k₃ (stackOf c) p = some (k₄.setEntry t (ptIndex (stackOf c)) (mkEntry p)) := by
    rw [mapProcess, mapProcessSpecific_eq, hd, Option.map_some]
  rw [setupKernelStack]
  simp only [bind, halloc, Option.bind_some]
  exact hstack

/-! ## Walks -/

/-- Every table is reached by its path. -/
theorem Words.follow_table (h : Words c U l k) : ∀ q : List (Fin 512), q.length ≤ 3 → some q ∈ U →
    follow next k.mem (tableFrame c []) q = some (tableFrame c q) := by
  intro q
  induction q using List.reverseRecOn with
  | nil => exact fun _ _ => rfl
  | append_singleton q i ih =>
    intro hlen hq
    rw [length_snoc] at hlen
    have hmem := h.closed q i hq
    rw [RadixForest.follow_snoc, ih (by omega) hmem, Option.bind_some, h.linked (by omega) hq, next_mkEntry,
      h.frameOf_table hq]

/-- Where no link has been left over, no other path leads to a table. -/
theorem Words.follow_none (h : Words c U l k) : ∀ q : List (Fin 512), q.length ≤ 3 →
    (∀ q' i, q' ++ [i] <+: q → some q' ∈ U → some (q' ++ [i]) ∉ U → isPresent (c.mem (tableFrame c q') i) = false) →
    some q ∉ U → follow next k.mem (tableFrame c []) q = none := by
  intro q
  induction q using List.reverseRecOn with
  | nil => exact fun _ _ hnot => absurd h.root hnot
  | append_singleton q i ih =>
    intro hlen hclean hnot
    rw [length_snoc] at hlen
    rw [RadixForest.follow_snoc]
    by_cases hq : some q ∈ U
    · rw [h.follow_table q (by omega) hq, Option.bind_some, h.unlinked (by omega) hq hnot,
        next_eq_none (hclean q i (List.prefix_refl _) hq hnot)]
    · rw [ih (by omega) (fun q' i' hpre => hclean q' i' (hpre.trans (List.prefix_append _ _))) hq, Option.bind_none]

/-- The frame the hardware finds is that of the word behind the last table. -/
theorem translate_eq (k : Kernel) (r : Nat) (v : Word) :
    translate k r v = (follow next k.mem r (pathOf v)).bind fun f => next (k.mem f (ptIndex v)) := by
  rw [PageTable.translate, walk, RadixForest.leaf]
  cases follow next k.mem r (pathOf v) with
  | none => rfl
  | some f =>
    rw [Option.bind_some, Option.bind_some]
    cases hp : isPresent (k.mem f (ptIndex v)) with
    | true => rw [next_eq_some hp]; rfl
    | false => rw [next_eq_none hp]; rfl

section

variable {path : Nat → List (Fin 512)} {a : Nat → Word} {m : Nat}

theorem lookup_addLeaves_none (h : ∀ j < m, path j ≠ p) : (addLeaves l path a m).lookup p = l.lookup p := by
  induction m with
  | zero => rfl
  | succ m ih =>
    rw [addLeaves_succ, List.lookup_cons, beq_eq_false_iff_ne.mpr (h m m.lt_succ_self).symm]
    exact ih fun j hj => h j (hj.trans m.lt_succ_self)

theorem lookup_addLeaves {j : Nat} (hj : j < m) (hinj : ∀ j' < m, path j' = path j → j' = j) :
    (addLeaves l path a m).lookup (path j) = some (mkEntry (a j)) := by
  induction m with
  | zero => exact absurd hj j.not_lt_zero
  | succ m ih =>
    rw [addLeaves_succ, List.lookup_cons]
    by_cases hm : path m = path j
    · rw [hinj m m.lt_succ_self hm, beq_self_eq_true]
    · rw [beq_eq_false_iff_ne.mpr (Ne.symm hm)]
      have hne : j ≠ m := fun heq => hm (heq ▸ rfl)
      exact ih (by omega) fun j' hj' => hinj j' (hj'.trans m.lt_succ_self)

theorem mem_addLeaves {e : List (Fin 512) × Word} :
    e ∈ addLeaves l path a m ↔ (∃ j < m, e = (path j, mkEntry (a j))) ∨ e ∈ l := by
  simp only [addLeaves, List.mem_append, List.mem_reverse, List.mem_map, List.mem_range, eq_comm]

end

end BootMemory
