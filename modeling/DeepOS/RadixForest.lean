import Mathlib

/-!
# Forests of radix tables

Tables of words are kept in a store; `next` says which table a word leads to. A
path of indices is followed from a root through at most `d` tables, and the word
reached with one more index is a leaf. In a forest no table is reached in two
ways. Then one write changes one path: linking an empty table adds a table and no
leaf, and writing below the last table changes one leaf of one tree.
-/
namespace RadixForest

variable {F I W : Type} (next : W → Option F)

def follow (m : F → I → W) : F → List I → Option F
  | f, [] => some f
  | f, i :: p => (next (m f i)).bind (fun g => follow m g p)

def leaf (m : F → I → W) (r : F) (p : List I) (i : I) : Option W :=
  (follow next m r p).bind (fun f => if (next (m f i)).isSome then some (m f i) else none)

def nodes (d : Nat) (m : F → I → W) (R : Set F) : Set F :=
  fun f => ∃ r ∈ R, ∃ p, p.length ≤ d ∧ follow next m r p = some f

/-- No table is reached in two ways. -/
def Forest (d : Nat) (m : F → I → W) (R : Set F) : Prop :=
  ∀ r ∈ R, ∀ r' ∈ R, ∀ p p' f, p.length ≤ d → p'.length ≤ d →
    follow next m r p = some f → follow next m r' p' = some f → r = r' ∧ p = p'

variable {next} {d : Nat} {m m' : F → I → W} {R : Set F}

theorem follow_append (r : F) (p q : List I) :
    follow next m r (p ++ q) = (follow next m r p).bind (fun f => follow next m f q) := by
  induction p generalizing r with
  | nil => rfl
  | cons i p ih =>
    simp only [List.cons_append, follow]
    cases next (m r i) with
    | none => rfl
    | some g => exact ih g

theorem follow_snoc (r : F) (p : List I) (i : I) :
    follow next m r (p ++ [i]) = (follow next m r p).bind (fun f => next (m f i)) := by
  rw [follow_append]
  cases follow next m r p with
  | none => rfl
  | some f => simp [follow]

/-- A path that can be followed can be followed part of the way. -/
theorem follow_prefix {r f : F} {p q : List I} (h : follow next m r (p ++ q) = some f) :
    ∃ g, follow next m r p = some g := by
  rw [follow_append] at h
  cases hp : follow next m r p with
  | none => rw [hp] at h; cases h
  | some g => exact ⟨g, rfl⟩

theorem leaf_eq_some {r : F} {p : List I} {i : I} {w : W} :
    leaf next m r p i = some w ↔
      ∃ f, follow next m r p = some f ∧ (next w).isSome ∧ m f i = w := by
  rw [leaf, Option.bind_eq_some_iff]
  constructor
  · rintro ⟨f, hf, h⟩
    split at h
    · rename_i hn
      exact ⟨f, hf, Option.some.inj h ▸ hn, Option.some.inj h⟩
    · cases h
  · rintro ⟨f, hf, hn, rfl⟩
    exact ⟨f, hf, if_pos hn⟩

theorem root_mem_nodes {r : F} (hr : r ∈ R) : r ∈ nodes next d m R :=
  ⟨r, hr, [], Nat.zero_le d, rfl⟩

theorem mem_nodes {r f : F} {p : List I} (hr : r ∈ R) (hp : p.length ≤ d)
    (h : follow next m r p = some f) : f ∈ nodes next d m R := ⟨r, hr, p, hp, h⟩

theorem nodes_mono {R' : Set F} (h : R ⊆ R') : nodes next d m R ⊆ nodes next d m R' := by
  rintro f ⟨r, hr, p, hp, hf⟩
  exact ⟨r, h hr, p, hp, hf⟩

/-! ## Stores that agree on the tables passed -/

theorem follow_congr {d : Nat} {r : F} {p : List I} (hp : p.length ≤ d)
    (h : ∀ q f, q.length < d → follow next m r q = some f → m' f = m f) :
    follow next m' r p = follow next m r p := by
  induction p generalizing r d with
  | nil => rfl
  | cons i p ih =>
    rw [List.length_cons] at hp
    rw [follow, follow, h [] r (by rw [List.length_nil]; omega) rfl]
    cases hn : next (m r i) with
    | none => rfl
    | some g =>
      apply ih (d := d - 1) (by omega)
      intro q f hq hf
      refine h (i :: q) f (by rw [List.length_cons]; omega) ?_
      rw [follow, hn]
      exact hf

theorem leaf_congr {r : F} {p : List I} (hp : p.length ≤ d) (i : I)
    (h : ∀ q f, q.length ≤ d → follow next m r q = some f → m' f = m f) :
    leaf next m' r p i = leaf next m r p i := by
  rw [leaf, leaf, follow_congr hp (fun q f hq => h q f hq.le)]
  cases hf : follow next m r p with
  | none => rfl
  | some f => simp only [Option.bind_some, h p f hp hf]

/-- Writes outside the forest are not seen from its roots. -/
theorem follow_outside (h : ∀ f ∈ nodes next d m R, m' f = m f) {r : F} (hr : r ∈ R) {p : List I}
    (hp : p.length ≤ d) : follow next m' r p = follow next m r p :=
  follow_congr hp (fun _ _ hq hf => h _ (mem_nodes hr hq.le hf))

theorem leaf_outside (h : ∀ f ∈ nodes next d m R, m' f = m f) {r : F} (hr : r ∈ R) {p : List I}
    (hp : p.length ≤ d) (i : I) : leaf next m' r p i = leaf next m r p i :=
  leaf_congr hp i (fun _ _ hq hf => h _ (mem_nodes hr hq hf))

theorem nodes_congr
    (h : ∀ r ∈ R, ∀ p : List I, p.length ≤ d → follow next m' r p = follow next m r p) :
    nodes next d m' R = nodes next d m R := by
  ext f
  constructor
  · rintro ⟨r, hr, p, hp, hf⟩
    exact ⟨r, hr, p, hp, (h r hr p hp).symm.trans hf⟩
  · rintro ⟨r, hr, p, hp, hf⟩
    exact ⟨r, hr, p, hp, (h r hr p hp).trans hf⟩

theorem Forest.congr (hF : Forest next d m R)
    (h : ∀ r ∈ R, ∀ p : List I, p.length ≤ d → follow next m' r p = follow next m r p) :
    Forest next d m' R := by
  intro r hr r' hr' p p' f hp hp' hf hf'
  rw [h r hr p hp] at hf
  rw [h r' hr' p' hp'] at hf'
  exact hF r hr r' hr' p p' f hp hp' hf hf'

theorem Forest.mono {R' : Set F} (hF : Forest next d m R) (h : R' ⊆ R) : Forest next d m R' :=
  fun r hr r' hr' => hF r (h hr) r' (h hr')

/-! ## Trees built from their subtrees -/

/-- The tables of the tree at `r` lie in `S`, each reached in one way. -/
structure TreeIn (next : W → Option F) (d : Nat) (m : F → I → W) (r : F) (S : Set F) : Prop where
  mem : ∀ p f, p.length ≤ d → follow next m r p = some f → f ∈ S
  inj : ∀ p p' f, p.length ≤ d → p'.length ≤ d →
    follow next m r p = some f → follow next m r p' = some f → p = p'

theorem TreeIn.follow_eq {r : F} {S : Set F} (h : TreeIn next d m r S)
    (hm : ∀ f ∈ S, m' f = m f) {p : List I} (hp : p.length ≤ d) :
    follow next m' r p = follow next m r p :=
  follow_congr hp (fun q f hq hf => hm f (h.mem q f hq.le hf))

theorem TreeIn.congr {r : F} {S : Set F} (h : TreeIn next d m r S) (hm : ∀ f ∈ S, m' f = m f) :
    TreeIn next d m' r S := by
  refine ⟨fun p f hp hf => ?_, fun p p' f hp hp' hf hf' => ?_⟩
  · rw [h.follow_eq hm hp] at hf
    exact h.mem p f hp hf
  · rw [h.follow_eq hm hp] at hf
    rw [h.follow_eq hm hp'] at hf'
    exact h.inj p p' f hp hp' hf hf'

theorem TreeIn.leaf_eq {r : F} {S : Set F} (h : TreeIn next d m r S)
    (hm : ∀ f ∈ S, m' f = m f) {p : List I} (hp : p.length ≤ d) (i : I) :
    leaf next m' r p i = leaf next m r p i :=
  leaf_congr hp i (fun q f hq hf => hm f (h.mem q f hq hf))

theorem TreeIn.root_mem {r : F} {S : Set F} (h : TreeIn next d m r S) : r ∈ S :=
  h.mem [] r (Nat.zero_le d) rfl

/-- The subtree below a link. -/
theorem TreeIn.child {r g : F} {i : I} {S : Set F} (h : TreeIn next (d + 1) m r S)
    (hg : next (m r i) = some g) : TreeIn next d m g S := by
  have hcons : ∀ {p : List I} {f : F}, follow next m g p = some f →
      follow next m r (i :: p) = some f := by
    intro p f hf
    rw [follow, hg]
    exact hf
  refine ⟨fun p f hp hf => ?_, fun p p' f hp hp' hf hf' => ?_⟩
  · exact h.mem (i :: p) f (by rw [List.length_cons]; omega) (hcons hf)
  · have he := h.inj (i :: p) (i :: p') f (by rw [List.length_cons]; omega)
      (by rw [List.length_cons]; omega) (hcons hf) (hcons hf')
    exact (List.cons.inj he).2

theorem TreeIn.mono {r : F} {S S' : Set F} (h : TreeIn next d m r S) (hS : S ⊆ S') :
    TreeIn next d m r S' := ⟨fun p f hp hf => hS (h.mem p f hp hf), h.inj⟩

theorem TreeIn.single (r : F) : TreeIn next 0 m r {r} := by
  have hnil : ∀ p : List I, p.length ≤ 0 → p = [] := fun p hp =>
    List.length_eq_zero_iff.mp (Nat.le_zero.mp hp)
  refine ⟨fun p f hp hf => ?_, fun p p' f hp hp' _ _ => ?_⟩
  · rw [hnil p hp] at hf
    exact (Option.some.inj hf).symm
  · rw [hnil p hp, hnil p' hp']

/-- A table over disjoint subtrees is the root of a tree. -/
theorem TreeIn.node {r : F} {S : I → Set F} (hr : ∀ i, r ∉ S i)
    (hdis : ∀ i j f, f ∈ S i → f ∈ S j → i = j)
    (hsub : ∀ i g, next (m r i) = some g → TreeIn next d m g (S i)) :
    TreeIn next (d + 1) m r (insert r (⋃ i, S i)) := by
  have hcons : ∀ i p f, (i :: p).length ≤ d + 1 → follow next m r (i :: p) = some f →
      ∃ g, next (m r i) = some g ∧ follow next m g p = some f ∧ f ∈ S i := by
    intro i p f hp hf
    rw [List.length_cons] at hp
    rw [follow, Option.bind_eq_some_iff] at hf
    obtain ⟨g, hg, hf⟩ := hf
    exact ⟨g, hg, hf, (hsub i g hg).mem p f (by omega) hf⟩
  refine ⟨fun p f hp hf => ?_, fun p p' f hp hp' hf hf' => ?_⟩
  · cases p with
    | nil => exact Or.inl (Option.some.inj hf).symm
    | cons i p =>
      obtain ⟨-, -, -, hfS⟩ := hcons i p f hp hf
      exact Or.inr (Set.mem_iUnion.mpr ⟨i, hfS⟩)
  · cases p with
    | nil =>
      cases p' with
      | nil => rfl
      | cons j p' =>
        obtain ⟨-, -, -, hfS⟩ := hcons j p' f hp' hf'
        rw [← Option.some.inj hf] at hfS
        exact absurd hfS (hr j)
    | cons i p =>
      obtain ⟨g, hg, hfg, hfS⟩ := hcons i p f hp hf
      cases p' with
      | nil =>
        rw [← Option.some.inj hf'] at hfS
        exact absurd hfS (hr i)
      | cons j p' =>
        obtain ⟨g', hg', hfg', hfS'⟩ := hcons j p' f hp' hf'
        obtain rfl := hdis i j f hfS hfS'
        rw [hg] at hg'
        obtain rfl := Option.some.inj hg'
        rw [List.length_cons] at hp hp'
        rw [(hsub i g hg).inj p p' f (by omega) (by omega) hfg hfg']

/-- A table with one link is the root of a tree over the tree it links to. -/
theorem TreeIn.cons {r g : F} {i : I} {S : Set F} (hr : r ∉ S) (hg : next (m r i) = some g)
    (hother : ∀ j, j ≠ i → next (m r j) = none) (h : TreeIn next d m g S) :
    TreeIn next (d + 1) m r (insert r S) := by
  classical
  have hnode : TreeIn next (d + 1) m r (insert r (⋃ j, if j = i then S else ∅)) := TreeIn.node
    (fun j => by split <;> simp [hr])
    (fun j l f hj hl => by
      have hji : j = i := by by_contra hne; rw [if_neg hne] at hj; exact hj
      have hli : l = i := by by_contra hne; rw [if_neg hne] at hl; exact hl
      rw [hji, hli])
    (fun j g' hj => by
      have hji : j = i := by by_contra hne; rw [hother j hne] at hj; cases hj
      subst hji
      rw [hg] at hj
      obtain rfl := Option.some.inj hj
      rw [if_pos rfl]
      exact h)
  refine hnode.mono (Set.insert_subset_insert ?_)
  intro f hf
  obtain ⟨j, hj⟩ := Set.mem_iUnion.mp hf
  split at hj
  · exact hj
  · cases hj

/-- Every path leads to the same leaf, or to none, in both trees. -/
def SameLeaves (next : W → Option F) (d : Nat) (m : F → I → W) (r : F) (m' : F → I → W) (r' : F) :
    Prop := ∀ p i, p.length = d → leaf next m' r' p i = leaf next m r p i

/-- Changes outside both trees keep their leaves the same. -/
theorem SameLeaves.congr {r r' : F} {S : Set F} {m₂ : F → I → W} (h : SameLeaves next d m r m' r')
    (ht : TreeIn next d m' r' S) (hm : ∀ f ∈ S, m₂ f = m' f) : SameLeaves next d m r m₂ r' := by
  intro p i hp
  rw [ht.leaf_eq hm hp.le i]
  exact h p i hp

theorem SameLeaves.node {r r' : F}
    (h : ∀ i, next (m r i) = none ∧ next (m' r' i) = none ∨
      ∃ g g', next (m r i) = some g ∧ next (m' r' i) = some g' ∧ SameLeaves next d m g m' g') :
    SameLeaves next (d + 1) m r m' r' := by
  intro p j hp
  cases p with
  | nil => simp at hp
  | cons i p =>
    rw [List.length_cons] at hp
    rw [leaf, leaf, follow, follow]
    rcases h i with ⟨hn, hn'⟩ | ⟨g, g', hg, hg', hsame⟩
    · rw [hn, hn']; rfl
    · rw [hg, hg']
      exact hsame p j (by omega)

theorem TreeIn.forest {r : F} {S : Set F} (h : TreeIn next d m r S) : Forest next d m {r} := by
  rintro a rfl b rfl p p' f hp hp' hf hf'
  exact ⟨rfl, h.inj p p' f hp hp' hf hf'⟩

/-- A tree on tables outside the forest joins it. -/
theorem Forest.insert {r : F} {S : Set F} (hF : Forest next d m R) (h : TreeIn next d m r S)
    (hdis : ∀ f ∈ nodes next d m R, f ∉ S) : Forest next d m (insert r R) := by
  rintro a ha b hb p p' f hp hp' hf hf'
  rcases ha with rfl | ha <;> rcases hb with rfl | hb
  · exact ⟨rfl, h.inj p p' f hp hp' hf hf'⟩
  · exact absurd (h.mem p f hp hf) (hdis f (mem_nodes hb hp' hf'))
  · exact absurd (h.mem p' f hp' hf') (hdis f (mem_nodes ha hp hf))
  · exact hF a ha b hb p p' f hp hp' hf hf'

/-! ## One write -/

variable [DecidableEq F] [DecidableEq I]

def put (m : F → I → W) (f : F) (i : I) (w : W) : F → I → W :=
  Function.update m f (Function.update (m f) i w)

@[simp] theorem put_self (m : F → I → W) (f : F) (i : I) (w : W) : put m f i w f i = w := by
  simp [put]

theorem put_of_ne (m : F → I → W) {f g : F} (h : g ≠ f) (i : I) (w : W) : put m f i w g = m g := by
  simp [put, h]

theorem put_index_of_ne (m : F → I → W) (f : F) {i j : I} (h : j ≠ i) (w : W) :
    put m f i w f j = m f j := by
  simp [put, h]

theorem put_same (m : F → I → W) (f : F) (i : I) : put m f i (m f i) = m := by
  simp [put]

section Link

variable {r₀ x g : F} {q : List I} {i : I} {w : W} (hF : Forest next d m R) (hr₀ : r₀ ∈ R)
  (hx : follow next m r₀ q = some x)

include hF hr₀ hx

/-- Linking an empty table that is outside the forest adds one path. -/
theorem follow_link (hq : q.length < d) (habs : next (m x i) = none) (hw : next w = some g)
    (hblank : ∀ j, next (m g j) = none) (hnew : g ∉ nodes next d m R)
    {r : F} (hr : r ∈ R) {p : List I} (hp : p.length ≤ d) :
    follow next (put m x i w) r p =
      if r = r₀ ∧ p = q ++ [i] then some g else follow next m r p := by
  have hgx : g ≠ x := by rintro rfl; exact hnew (mem_nodes hr₀ hq.le hx)
  induction p using List.reverseRecOn with
  | nil => simp [follow]
  | append_singleton p j ih =>
    rw [List.length_append, List.length_singleton] at hp
    rw [follow_snoc, ih (by omega), follow_snoc]
    by_cases hnewpath : r = r₀ ∧ p = q ++ [i]
    · -- below the new table nothing is present
      obtain ⟨rfl, rfl⟩ := hnewpath
      have hlong : ¬ (r = r ∧ q ++ [i] ++ [j] = q ++ [i]) := by
        rintro ⟨-, he⟩
        have := congrArg List.length he
        simp at this
      rw [if_pos ⟨rfl, rfl⟩, if_neg hlong, Option.bind_some, put_of_ne m hgx, hblank j,
        follow_snoc, hx, Option.bind_some, habs, Option.bind_none]
    · rw [if_neg hnewpath]
      cases hf : follow next m r p with
      | none =>
        have hne : ¬ (r = r₀ ∧ p ++ [j] = q ++ [i]) := by
          rintro ⟨rfl, he⟩
          rw [(List.append_inj' he rfl).1, hx] at hf
          cases hf
        rw [if_neg hne, Option.bind_none, Option.bind_none]
      | some f =>
        rw [Option.bind_some, Option.bind_some]
        by_cases hfx : f = x
        · subst hfx
          obtain ⟨rfl, rfl⟩ := hF r hr r₀ hr₀ p q f (by omega) hq.le hf hx
          by_cases hj : j = i
          · subst hj; rw [put_self, hw, if_pos ⟨rfl, rfl⟩]
          · have hne : ¬ (r = r ∧ p ++ [j] = p ++ [i]) := by
              rintro ⟨-, he⟩
              exact hj (by simpa using he)
            rw [put_index_of_ne m f hj, if_neg hne]
        · have hne : ¬ (r = r₀ ∧ p ++ [j] = q ++ [i]) := by
            rintro ⟨rfl, he⟩
            rw [(List.append_inj' he rfl).1, hx] at hf
            exact hfx (Option.some.inj hf).symm
          rw [put_of_ne m hfx, if_neg hne]

/-- Linking an empty table adds no leaf. -/
theorem leaf_link (hq : q.length < d) (habs : next (m x i) = none) (hw : next w = some g)
    (hblank : ∀ j, next (m g j) = none) (hnew : g ∉ nodes next d m R)
    {r : F} (hr : r ∈ R) {p : List I} (hp : p.length = d) (j : I) :
    leaf next (put m x i w) r p j = leaf next m r p j := by
  have hgx : g ≠ x := by rintro rfl; exact hnew (mem_nodes hr₀ hq.le hx)
  rw [leaf, leaf, follow_link hF hr₀ hx hq habs hw hblank hnew hr hp.le]
  by_cases hpath : r = r₀ ∧ p = q ++ [i]
  · obtain ⟨rfl, rfl⟩ := hpath
    rw [if_pos ⟨rfl, rfl⟩, follow_snoc, hx]
    simp [put_of_ne m hgx, hblank j, habs]
  · rw [if_neg hpath]
    cases hf : follow next m r p with
    | none => rfl
    | some f =>
      have hfx : f ≠ x := by
        rintro rfl
        obtain ⟨-, rfl⟩ := hF r hr r₀ hr₀ p q f hp.le hq.le hf hx
        omega
      rw [Option.bind_some, Option.bind_some, put_of_ne m hfx]

theorem forest_link (hq : q.length < d) (habs : next (m x i) = none) (hw : next w = some g)
    (hblank : ∀ j, next (m g j) = none) (hnew : g ∉ nodes next d m R) :
    Forest next d (put m x i w) R := by
  intro r hr r' hr' p p' f hp hp' hf hf'
  rw [follow_link hF hr₀ hx hq habs hw hblank hnew hr hp] at hf
  rw [follow_link hF hr₀ hx hq habs hw hblank hnew hr' hp'] at hf'
  split at hf
  · rename_i hpath
    split at hf'
    · rename_i hpath'
      exact ⟨hpath.1.trans hpath'.1.symm, hpath.2.trans hpath'.2.symm⟩
    · rw [← Option.some.inj hf] at hf'
      exact absurd (mem_nodes hr' hp' hf') hnew
  · split at hf'
    · rw [← Option.some.inj hf'] at hf
      exact absurd (mem_nodes hr hp hf) hnew
    · exact hF r hr r' hr' p p' f hp hp' hf hf'

theorem nodes_link (hq : q.length < d) (habs : next (m x i) = none) (hw : next w = some g)
    (hblank : ∀ j, next (m g j) = none) (hnew : g ∉ nodes next d m R) :
    nodes next d (put m x i w) R = insert g (nodes next d m R) := by
  have hlink := fun {r : F} (hr : r ∈ R) {p : List I} (hp : p.length ≤ d) =>
    follow_link hF hr₀ hx hq habs hw hblank hnew hr hp
  ext f
  constructor
  · rintro ⟨r, hr, p, hp, hf⟩
    rw [hlink hr hp] at hf
    split at hf
    · exact Or.inl (Option.some.inj hf).symm
    · exact Or.inr ⟨r, hr, p, hp, hf⟩
  · rintro (rfl | ⟨r, hr, p, hp, hf⟩)
    · have hlen : (q ++ [i]).length ≤ d := by rw [List.length_append, List.length_singleton]; omega
      exact ⟨r₀, hr₀, q ++ [i], hlen, by rw [hlink hr₀ hlen, if_pos ⟨rfl, rfl⟩]⟩
    · refine ⟨r, hr, p, hp, ?_⟩
      have hne : ¬ (r = r₀ ∧ p = q ++ [i]) := by
        rintro ⟨rfl, rfl⟩
        rw [follow_snoc, hx, Option.bind_some, habs] at hf
        cases hf
      rw [hlink hr hp, if_neg hne, hf]

/-- Writing into a last table leaves all paths alone. -/
theorem follow_set (hq : q.length = d) {r : F} (hr : r ∈ R) {p : List I} (hp : p.length ≤ d) :
    follow next (put m x i w) r p = follow next m r p := by
  apply follow_congr hp
  intro p' f hp' hf
  apply put_of_ne
  rintro rfl
  obtain ⟨-, rfl⟩ := hF r hr r₀ hr₀ p' q f hp'.le hq.le hf hx
  omega

/-- Writing into a last table changes one leaf of one tree. -/
theorem leaf_set (hq : q.length = d) (hw : (next w).isSome) {r : F} (hr : r ∈ R) {p : List I}
    (hp : p.length ≤ d) (j : I) :
    leaf next (put m x i w) r p j =
      if r = r₀ ∧ p = q ∧ j = i then some w else leaf next m r p j := by
  rw [leaf, leaf, follow_set hF hr₀ hx hq hr hp]
  by_cases hpath : r = r₀ ∧ p = q
  · obtain ⟨rfl, rfl⟩ := hpath
    rw [hx, Option.bind_some, Option.bind_some]
    by_cases hj : j = i
    · subst hj; rw [put_self, if_pos hw, if_pos ⟨rfl, rfl, rfl⟩]
    · have hne : ¬ (r = r ∧ p = p ∧ j = i) := fun h => hj h.2.2
      rw [put_index_of_ne m x hj, if_neg hne]
  · rw [if_neg (fun h => hpath ⟨h.1, h.2.1⟩)]
    cases hf : follow next m r p with
    | none => rfl
    | some f =>
      have hfx : f ≠ x := by
        rintro rfl
        exact hpath (hF r hr r₀ hr₀ p q f hp hq.le hf hx)
      rw [Option.bind_some, Option.bind_some, put_of_ne m hfx]

end Link

end RadixForest
