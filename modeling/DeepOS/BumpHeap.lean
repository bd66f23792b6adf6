import Mathlib

/-!
# Bump allocation in pages

Blocks are cut from the page in use one behind the other, and a block that does not
fit starts a new page. As long as no block is larger than a page, the blocks lie in
pages and do not overlap. Addresses are natural numbers and a block is a start with
a length.
-/
namespace BumpHeap

abbrev Block := Nat × Nat

def Inside (size p : Nat) (b : Block) : Prop := p ≤ b.1 ∧ b.1 < p + size ∧ b.1 + b.2 ≤ p + size

def Apart (b c : Block) : Prop := b.1 + b.2 ≤ c.1 ∨ c.1 + c.2 ≤ b.1

instance decidableApart : DecidableRel Apart := fun _ _ => inferInstanceAs (Decidable (_ ∨ _))

/-- `cursor` is the page in use and the address up to which it is filled. -/
structure Layout (size : Nat) (pages : List Nat) (blocks : List Block) (cursor : Option (Nat × Nat)) :
    Prop where
  aligned : ∀ p ∈ pages, p % size = 0
  inside : ∀ b ∈ blocks, ∃ p ∈ pages, Inside size p b
  apart : blocks.Pairwise Apart
  filled : ∀ p cur, cursor = some (p, cur) →
    p ∈ pages ∧ p ≤ cur ∧ ∀ b ∈ blocks, Inside size p b → b.1 + b.2 ≤ cur

variable {size : Nat} {pages : List Nat} {blocks : List Block} {cursor : Option (Nat × Nat)}

theorem layout_nil : Layout size [] [] none where
  aligned := fun _ hp => by cases hp
  inside := fun _ hb => by cases hb
  apart := List.Pairwise.nil
  filled := fun _ _ h => by cases h

/-- Two pages that start at different places do not overlap. -/
theorem page_le {p q : Nat} (hp : p % size = 0) (hq : q % size = 0) (hlt : p < q) : p + size ≤ q := by
  obtain ⟨m, rfl⟩ := Nat.dvd_of_mod_eq_zero hp
  obtain ⟨n, rfl⟩ := Nat.dvd_of_mod_eq_zero hq
  have hmn : m < n := lt_of_mul_lt_mul_left hlt (Nat.zero_le size)
  calc size * m + size = size * (m + 1) := (Nat.mul_succ size m).symm
    _ ≤ size * n := Nat.mul_le_mul_left size hmn

theorem apart_of_page_ne {p q : Nat} {b c : Block} (hp : p % size = 0) (hq : q % size = 0) (hne : p ≠ q)
    (hb : Inside size p b) (hc : Inside size q c) : Apart b c := by
  obtain ⟨hb₀, -, hb₁⟩ := hb
  obtain ⟨hc₀, -, hc₁⟩ := hc
  rcases Nat.lt_or_gt_of_ne hne with hlt | hlt
  · left
    have := page_le hp hq hlt
    omega
  · right
    have := page_le hq hp hlt
    omega

/-- Another page is obtained. -/
theorem Layout.page {p : Nat} (h : Layout size pages blocks cursor) (hp : p % size = 0) :
    Layout size (p :: pages) blocks cursor where
  aligned := List.forall_mem_cons.mpr ⟨hp, h.aligned⟩
  inside := by
    intro b hb
    obtain ⟨q, hq, hin⟩ := h.inside b hb
    exact ⟨q, List.mem_cons_of_mem p hq, hin⟩
  apart := h.apart
  filled := by
    intro q cur hcur
    obtain ⟨hq, hrest⟩ := h.filled q cur hcur
    exact ⟨List.mem_cons_of_mem p hq, hrest⟩

/-- The page in use is given up. -/
theorem Layout.close (h : Layout size pages blocks cursor) : Layout size pages blocks none :=
  ⟨h.aligned, h.inside, h.apart, fun _ _ hcur => by cases hcur⟩

/-- A block is cut from the page in use. -/
theorem Layout.take {p cur n : Nat} (h : Layout size pages blocks (some (p, cur))) (hlt : cur < p + size)
    (hfit : cur + n ≤ p + size) : Layout size pages ((cur, n) :: blocks) (some (p, cur + n)) := by
  obtain ⟨hp, hle, hfilled⟩ := h.filled p cur rfl
  have hin : Inside size p (cur, n) := ⟨hle, hlt, hfit⟩
  refine ⟨h.aligned, ?_, List.pairwise_cons.mpr ⟨?_, h.apart⟩, ?_⟩
  · intro b hb
    rcases List.mem_cons.mp hb with rfl | hb
    · exact ⟨p, hp, hin⟩
    · exact h.inside b hb
  · intro b hb
    obtain ⟨q, hq, hbin⟩ := h.inside b hb
    by_cases hpq : p = q
    · exact Or.inr (hfilled b hb (hpq ▸ hbin))
    · exact apart_of_page_ne (h.aligned p hp) (h.aligned q hq) hpq hin hbin
  · intro q cur' hcur
    obtain ⟨rfl, rfl⟩ := Prod.mk.inj (Option.some.inj hcur)
    refine ⟨hp, by omega, fun b hb hbin => ?_⟩
    rcases List.mem_cons.mp hb with rfl | hb
    · exact le_rfl
    · have := hfilled b hb hbin
      omega

/-- A block starts a page that is new. -/
theorem Layout.refill {p n : Nat} (h : Layout size pages blocks cursor) (hp : p % size = 0)
    (hnew : p ∉ pages) (hpos : 0 < size) (hn : n ≤ size) :
    Layout size (p :: pages) ((p, n) :: blocks) (some (p, p + n)) := by
  have hfresh : Layout size (p :: pages) blocks (some (p, p)) := by
    refine ⟨(h.page hp).aligned, (h.page hp).inside, h.apart, ?_⟩
    intro q cur hcur
    obtain ⟨rfl, rfl⟩ := Prod.mk.inj (Option.some.inj hcur)
    refine ⟨List.mem_cons_self, le_rfl, fun b hb hbin => ?_⟩
    -- the blocks so far lie in other pages
    obtain ⟨r, hr, hbr⟩ := h.inside b hb
    have hne : r ≠ p := fun he => hnew (he ▸ hr)
    exfalso
    obtain ⟨hb₀, hb₁, -⟩ := hbin
    obtain ⟨hr₀, hr₁, -⟩ := hbr
    rcases Nat.lt_or_gt_of_ne hne with hlt | hlt
    · have := page_le (h.aligned r hr) hp hlt
      omega
    · have := page_le hp (h.aligned r hr) hlt
      omega
  exact hfresh.take (by omega) (by omega)

end BumpHeap
